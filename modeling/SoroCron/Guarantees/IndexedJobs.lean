import SoroCron.KeeperBot.Watching
import SoroCron.Registry.Deployment

/-! # What the keeper finds due

After a load and any number of syncs, the last of them undisturbed, the index lists exactly the
jobs that the registry finds due, as long as every event was heard once: none was skipped by
the load or left behind by a short page, and no run was charged to a balance that was read
after it.
-/

namespace SoroCron

open KeeperBot

variable {World : Type} {host : Host World} {w : Watched World} {c : Chain World}

/-- The job that an event tells a run of. -/
def Event.ran : Event → Option JobId
  | .jobExecuted id _ _ _ _ _ _ _ _ _ => some id
  | _ => none

/-- The answer neither loses an event nor charges a run twice. -/
def OnceAt (w : Watched World) (reply : Reply) : Pending → Prop
  | .firstEvent latest =>
      -- The load's cursor skips this event: it must have been there when its job was read.
      ∀ event ∈ (eventPage w.chain.log (firstOf w.chain.log latest) 1 reply).events,
        ∀ id ∈ tracked event.event, event.id < w.held id
  | .nextPage =>
      -- A sync ends with the first short page: nothing may be left behind it.
      reply.count < eventLimit → ∀ start ∈ w.index.position w.chain.log, w.chain.log.length ≤
        start + reply.count
  | .applying (event :: _) _ _ =>
      -- A run is subtracted from the balance: the job must have been read before it.
      ∀ id ∈ event.event.ran, (w.index.jobs.get id).isSome = true → w.held id ≤ event.id
  | _ => True

def HeardOnce (w : Watched World) : WatchAction World → Prop
  | .answered reply => OnceAt w reply w.index.pending
  | _ => True

instance (w : Watched World) (reply : Reply) :
    (pending : Pending) → Decidable (OnceAt w reply pending)
  | .firstEvent latest => inferInstanceAs (Decidable (∀ event ∈
      (eventPage w.chain.log (firstOf w.chain.log latest) 1 reply).events, ∀ id ∈
        tracked event.event, event.id < w.held id))
  | .nextPage =>
      inferInstanceAs (Decidable (reply.count < eventLimit → ∀ start ∈ w.index.position w.chain.log,
      w.chain.log.length ≤ start + reply.count))
  | .applying (event :: _) _ _ => inferInstanceAs (Decidable (∀ id ∈ event.event.ran,
      (w.index.jobs.get id).isSome = true → w.held id ≤ event.id))
  | .applying [] _ _ | .idle | .latestLedger | .jobCount _ | .getJobs .. =>
      inferInstanceAs (Decidable True)

instance (w : Watched World) : (action : WatchAction World) → Decidable (HeardOnce w action)
  | .answered reply => inferInstanceAs (Decidable (OnceAt w reply w.index.pending))
  | .registry _ | .load | .sync | .failed => inferInstanceAs (Decidable True)

/-- At any time, the index lists exactly the live jobs that `ensureDue` lets through. -/
def DueExactly (w : Watched World) : Prop :=
  ∀ now id, id ∈ (w.index.due now).map IndexedJob.id ↔
    ∃ spec state, w.chain.reg.jobs.getJobParts id = some (spec, state) ∧
      ensureDue spec state now = .ok ()

/-! ## One step -/

theorem ran_of_spent {id : JobId} {event : Event} {fee : ℤ} (h : posting id event = .spent fee) :
    event.ran = some id := by
  by_cases htracked : tracked event = some id
  · have hposting : posting id event = _ := if_pos htracked
    rw [hposting] at h
    cases event with
    | jobExecuted => exact htracked
    | _ => cases h
  · rw [posting_of_untracked htracked] at h
    cases h

theorem watch_kept {action : WatchAction World} (h : WatchHolds host w)
    (hallowed : Allowed host w action)
    (honce : HeardOnce w action) : WatchHolds host (watch host w action) := by
  cases action with
  | registry action => exact acted_kept h.reachable hallowed h
  | load => exact loads_kept h
  | sync => exact syncs_kept h
  | failed => exact failed_kept h
  | answered reply =>
      cases hpending : w.index.pending with
      | idle =>
          have hindex : w.index.answered w.chain reply = w.index := by
            rw [JobIndex.answered, hpending]
          have hstays : watch host w (.answered reply) = w := by
            simp only [watch, Watched.quietAfter, Watched.readAfter, Watched.heldAfter, hindex,
              hpending]
          rw [hstays]
          exact h
      | latestLedger => exact latestLedger_kept h hpending
      | jobCount latest => exact jobCount_kept h hpending
      | getJobs latest count start jobs => exact getJobs_kept h hpending
      | firstEvent latest =>
          simp only [HeardOnce, OnceAt, hpending] at honce
          exact firstEvent_kept h hpending honce
      | nextPage =>
          simp only [HeardOnce, OnceAt, hpending] at honce
          exact nextPage_kept h hpending honce
      | applying rest cursor short =>
          cases rest with
          | nil => exact applied_kept h hpending
          | cons event rest =>
              simp only [HeardOnce, OnceAt, hpending] at honce
              apply applying_kept h hpending
              intro id fee hspent
              exact honce id (ran_of_spent hspent)

/-! ## Whole runs -/

theorem Reachable.truthful (hreach : Reachable host c) (id : JobId) :
    Truthful id (published c) (standing c.reg.jobs id) := by
  refine hreach.invariant (I := fun c => Truthful id (published c) (standing c.reg.jobs id)) ?_ ?_
  · intro c hdeployed
    rw [published, hdeployed.silent]
    exact .nil _ _
  · intro c action hreach hadm htruthful
    exact acted_truthful (w := .new c 0) hreach hadm htruthful

theorem new_kept (hreach : Reachable host c) (resyncEvery : ℕ) :
    WatchHolds host (.new c resyncEvery) := by
  refine ⟨hreach, hreach.truthful, nofun, ?_, nofun⟩
  intro place hplace
  cases hplace

/-! ## What is listed -/

/-- Entries that agree but for a balance too small for a run are due at the same times. -/
theorem mightBeDue_eq {entry job : IndexedJob}
    (hparts : ∀ part : Part, part.read entry = part.read job)
    (hagrees : job.Agrees entry.balance) (now : Timestamp) :
    mightBeDue entry now = mightBeDue job now := by
  have hterms : (entry.id, entry.feePerRun, entry.maxRuns, entry.endAt) =
      (job.id, job.feePerRun, job.maxRuns, job.endAt) := hparts .terms
  have hrun : (entry.nextRun, entry.runs) = (job.nextRun, job.runs) := hparts .run
  have hactive : entry.active = job.active := hparts .active
  simp only [Prod.mk.injEq] at hterms hrun
  obtain ⟨-, hfee, hmaxRuns, hendAt⟩ := hterms
  obtain ⟨hnextRun, hruns⟩ := hrun
  have hfunded : job.feePerRun ≤ entry.balance ↔ job.feePerRun ≤ job.balance := by
    rcases hagrees with hright | ⟨hsmall, hshort⟩
    · rw [hright]
    · omega
  simp only [mightBeDue, hfee, hmaxRuns, hendAt, hnextRun, hruns, hactive,
    decide_eq_decide.mpr hfunded]

theorem mightBeDue_eq_true {id : JobId} {spec : JobSpec} {state : JobState} {now : Timestamp} :
    mightBeDue (toIndexed (jobView id spec state)) now = true ↔
      ensureDue spec state now = .ok () := by
  rw [ensureDue_eq_ok]
  simp only [mightBeDue, Bool.and_eq_true, Bool.or_eq_true, decide_eq_true_eq, and_assoc]
  exact Iff.rfl

theorem mem_due {index : JobIndex} {now : Timestamp} {entry : IndexedJob} :
    entry ∈ index.due now ↔ (∃ id, index.jobs.get id = some entry) ∧
      mightBeDue entry now = true := by
  rw [JobIndex.due, List.mem_insertionSort, List.mem_filter, Listing.mem_values]

theorem due_of_knows (h : Knows w w.chain.log.length) : DueExactly w := by
  have hexact : ∀ id, (w.index.jobs.get id).isSome = (standing w.chain.reg.jobs id).job.isSome ∧
      ∀ entry ∈ w.index.jobs.get id, ∀ job ∈ (standing w.chain.reg.jobs id).job,
        (∀ part : Part, part.read entry = part.read job) ∧ job.Agrees entry.balance := by
    intro id
    have hknown := h id
    rw [← published_length] at hknown
    exact hknown.exact
  intro now id
  simp only [List.mem_map, mem_due]
  constructor
  · rintro ⟨entry, ⟨⟨key, hentry⟩, hdue⟩, rfl⟩
    obtain ⟨hsome, hagree⟩ := hexact key
    rw [hentry, Option.isSome_some] at hsome
    cases hphase : w.chain.reg.jobs.phase key with
    | live spec state =>
        have hlive : (standing w.chain.reg.jobs key).job =
            some (toIndexed (jobView key spec state)) := by
          rw [standing, hphase]
          rfl
        obtain ⟨hparts, hbalance⟩ := hagree entry hentry _ hlive
        have hkey : entry.id = key := congrArg Prod.fst (hparts .terms)
        rw [mightBeDue_eq hparts hbalance, mightBeDue_eq_true] at hdue
        rw [hkey]
        exact ⟨spec, state, parts_of_phase hphase, hdue⟩
    | _ =>
        rw [standing, hphase] at hsome
        cases hsome
  · rintro ⟨spec, state, hparts, hdue⟩
    have hlive : (standing w.chain.reg.jobs id).job = some (toIndexed (jobView id spec state)) := by
      rw [standing, phase_of_parts hparts]
      rfl
    obtain ⟨hsome, hagree⟩ := hexact id
    rw [hlive, Option.isSome_some, Option.isSome_iff_exists] at hsome
    obtain ⟨entry, hentry⟩ := hsome
    obtain ⟨hparts, hbalance⟩ := hagree entry hentry _ hlive
    refine ⟨entry, ⟨⟨id, hentry⟩, ?_⟩, ?_⟩
    · rw [mightBeDue_eq hparts hbalance, mightBeDue_eq_true]
      exact hdue
    · exact congrArg Prod.fst (hparts .terms)

/-- In every run in which every event is heard once, whenever a load or a sync is done and nobody
called the registry since its first answer, the index lists exactly the jobs that are due. -/
theorem index_lists_due {start : Chain World} {resyncEvery : ℕ} {actions : List (WatchAction World)}
    (hreach : Reachable host start)
    (halong : (watching host).Along (fun w action => Allowed host w action ∧ HeardOnce w action)
      (.new start resyncEvery) actions)
    (hidle : ((watching host).run (.new start resyncEvery) actions).index.pending = .idle)
    (hquiet : ((watching host).run (.new start resyncEvery) actions).quiet = true) :
    DueExactly ((watching host).run (.new start resyncEvery) actions) := by
  have hkept := Machine.invariant_run (I := WatchHolds host)
    (fun w action hkept hstep => watch_kept hkept hstep.1 hstep.2)
      (new_kept hreach resyncEvery) halong
  have hfollowed := hkept.followed
  rw [hidle] at hfollowed
  exact due_of_knows (hfollowed.2 hquiet)

/-! ## Two runs -/

/-- What `Allowed` asks of the index, and what it asks of the registry. -/
def Ready (w : Watched World) : WatchAction World → Prop
  | .sync => (w.index.position w.chain.log).isSome = true
  | _ => True

def Calls (host : Host World) (w : Watched World) : WatchAction World → Prop
  | .registry action => Admissible host w.chain action
  | _ => True

instance (w : Watched World) : (action : WatchAction World) → Decidable (Ready w action)
  | .sync => inferInstanceAs (Decidable ((w.index.position w.chain.log).isSome = true))
  | .registry _ | .load | .answered _ | .failed => inferInstanceAs (Decidable True)

theorem allowed_of_checks {actions : List (WatchAction World)}
    (hready : (watching host).Along Ready w actions)
    (hcalls : (watching host).Along (Calls host) w actions) :
    (watching host).Along (Allowed host) w actions := by
  refine Machine.along_mono ?_ (Machine.along_and hready hcalls)
  rintro w action ⟨hready, hcalls⟩
  cases action with
  | registry action => exact hcalls
  | sync => exact hready
  | _ => exact trivial

theorem due_of_check {jobs : JobTable} {id : JobId} {now : Timestamp}
    (h : (jobs.getJobParts id).any
      (fun parts => decide (ensureDue parts.1 parts.2 now = .ok ())) = true) :
    ∃ spec state, jobs.getJobParts id = some (spec, state) ∧ ensureDue spec state now = .ok () := by
  cases hparts : jobs.getJobParts id with
  | none =>
      rw [hparts] at h
      cases h
  | some parts =>
      rw [hparts] at h
      exact ⟨parts.1, parts.2, rfl, of_decide_eq_true h⟩

/-- The first run's registry, before the job is due. -/
def waitingChain : Chain Unit :=
  (machine plainHost).run (deployment ⟨3⟩ 1000 100 10 1000) (firstRun.take 4)

theorem waitingChain_reachable : Reachable plainHost waitingChain := by
  refine ⟨_, firstRun.take 4, deployment_deployed ⟨3⟩ 10 1000 (by decide) (by decide), ?_, rfl⟩
  have hall := firstRun_admissible (deployment ⟨3⟩ 1000 100 10 1000)
  rw [← List.take_append_drop 4 firstRun, Machine.along_append] at hall
  exact hall.1

/-- A load, a sync, a run, and another sync. -/
def followedRun : List (WatchAction Unit) :=
  [.load] ++ List.replicate 4 (.answered ⟨500, true⟩) ++ [.sync] ++
    List.replicate 5 (.answered ⟨500, true⟩) ++
    [.registry (.advance 1060), .registry (.call ⟨[⟨4⟩]⟩ (.run (.execute ⟨4⟩ 0))), .sync] ++
    List.replicate 3 (.answered ⟨500, true⟩)

/-- The job that ran is listed again when its next run is due. -/
theorem index_lists_due_followedRun :
    0 ∈ (((watching plainHost).run (.new waitingChain 360) followedRun).index.due 1120).map
      IndexedJob.id := by
  have hallowed : (watching plainHost).Along (Allowed plainHost)
      (.new waitingChain 360) followedRun := by
    apply allowed_of_checks
    · decide +kernel
    · simp [followedRun, Machine.Along, Calls, Admissible, Call.WellTyped, u64Max]
  have honce : (watching plainHost).Along HeardOnce (.new waitingChain 360) followedRun := by
    decide +kernel
  have hidle : ((watching plainHost).run (.new waitingChain 360) followedRun).index.pending =
      .idle := rfl
  have hexact := index_lists_due waitingChain_reachable (Machine.along_and hallowed honce) hidle
    (by decide +kernel)
  exact (hexact 1120 0).mpr (due_of_check (by decide +kernel))

/-- Two jobs that one call creates and one call runs. -/
def batchChain : Chain Unit :=
  (machine plainHost).run (deployment ⟨3⟩ 1000 100 10 1000)
    [.call ⟨[⟨3⟩]⟩ (.admin (.setExecutor ⟨6⟩)),
      .call ⟨[⟨4⟩]⟩ (.keeper (.stake ⟨4⟩ 100)),
      .call ⟨[⟨5⟩]⟩ (.job (.createJobs ⟨5⟩ [minutely, minutely] [20, 20])),
      .advance 1060,
      .call ⟨[⟨4⟩]⟩ (.run (.executeBatch ⟨4⟩ [0, 1]))]

/-- A load right after the batch, and a sync. -/
def overtakingRun : List (WatchAction Unit) :=
  [.load] ++ List.replicate 4 (.answered ⟨500, true⟩) ++ [.sync] ++
    List.replicate 3 (.answered ⟨500, true⟩)

/-- The load read both jobs after their runs, skips the event of the first run, and charges the
second run again: the index loses a job that can pay for its next run. -/
theorem index_misses_due_job :
    Reachable plainHost batchChain ∧
      (watching plainHost).Along (Allowed plainHost) (.new batchChain 360) overtakingRun ∧
      ((watching plainHost).run (.new batchChain 360) overtakingRun).index.pending = .idle ∧
      ((watching plainHost).run (.new batchChain 360) overtakingRun).quiet = true ∧
      ¬ DueExactly ((watching plainHost).run (.new batchChain 360) overtakingRun) := by
  refine ⟨?_, ?_, rfl, by decide +kernel, ?_⟩
  · refine ⟨_, _, deployment_deployed ⟨3⟩ 10 1000 (by decide) (by decide), ?_, rfl⟩
    simp [Machine.Along, Admissible, Call.WellTyped, JobParams.WellTyped, minutely, u64Max, i128Max]
  · apply allowed_of_checks
    · decide +kernel
    · simp [overtakingRun, Machine.Along, Calls]
  · intro hexact
    have hlisted := (hexact 1120 1).mpr (due_of_check (by decide +kernel))
    revert hlisted
    decide +kernel

end SoroCron
