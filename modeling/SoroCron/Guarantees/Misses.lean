import SoroCron.Registry.Deployment
import SoroCron.Registry.Lives
import SoroCron.Registry.Windows

/-! # Misses are the keeper's own

When a run records a missed window, the keeper it names had the whole window: at every
moment of it the run was due, reserved for that keeper, and the registry would have taken
the call. Two calls change who can execute without restarting the windows, so the result
speaks of runs in which every step restarts the windows it should.
-/

namespace SoroCron

open Outcome Bounded

variable {World : Type} {host : Host World} {c : Chain World} {jobId : JobId}

/-! ## What a miss says -/

/-- The event says that `missed` let its window for this job pass. -/
def Event.isMissOf (missed : Address) (jobId : JobId) : Event → Bool
  | .keeperMissedWindow keeper id _ => keeper = missed && id = jobId
  | _ => false

/-- The run recorded that `missed` let its window pass. -/
def Execution.RecordsMiss (e : Execution World) (missed : Address) : Prop :=
  ∃ entry ∈ e.published, entry.2.isMissOf missed e.jobId = true

/-- The end of the run's window is a representable time. -/
def Execution.WindowFits (e : Execution World) : Prop :=
  ∀ parts ∈ e.before.chain.reg.jobs.getJobParts e.jobId,
    windowOpened e.before.chain.reg e.jobId parts.1 parts.2.nextRun +
      e.before.chain.reg.config.gracePeriod ≤ u64Max

theorem missEvents_mem {keepers : KeeperTable} {ranBy missed : Address} {charged : Option Address}
    {event : Event} (h : event ∈ missEvents keepers jobId ranBy charged)
    (hmiss : event.isMissOf missed jobId = true) : charged = some missed := by
  cases charged with
  | none => cases h
  | some who =>
      unfold missEvents at h
      dsimp only at h
      split at h
      · cases List.mem_singleton.mp h
        simpa [Event.isMissOf] using hmiss
      · cases h

/-- A recorded miss names the keeper that the run charged. -/
theorem Ran.charged_of_published {executor keeper missed : Address} {entry : Timestamp × Event}
    {b b' : Batch World} {r : Receipt World} (hran : Ran host executor keeper jobId b b' r)
    (h : entry ∈ b'.chain.log.drop b.chain.log.length)
    (hmiss : entry.2.isMissOf missed jobId = true) :
    r.charged b.chain.reg jobId b.chain.now = some missed := by
  rw [hran.published, List.mem_map] at h
  obtain ⟨event, hevent, rfl⟩ := h
  simp only [Receipt.events, List.mem_append] at hevent
  rcases hevent with ((hdeactivated | hexhausted) | hmissed) | hexecuted
  · split at hdeactivated
    · cases List.mem_singleton.mp hdeactivated
      cases hmiss
    · cases hdeactivated
  · split at hexhausted
    · cases List.mem_singleton.mp hexhausted
      cases hmiss
    · cases hexhausted
  · exact missEvents_mem hmissed hmiss
  · cases List.mem_singleton.mp hexecuted
    cases hmiss

/-! ## A keeper's own run -/

/-- The registry takes the call: whoever else signs it, only a token can still refuse. -/
def AcceptsRun (host : Host World) (c : Chain World) (keeper : Address) (jobId : JobId) : Prop :=
  ∀ ctx why, keeper ∈ ctx.signers → execute host ctx c keeper jobId = .error why →
    why = .trap .tokenRefused

/-- The job waits for this very run, as the run found it later: it is due, it is reserved for
this keeper, and the keeper can make it. -/
structure OwnRun (host : Host World) (c : Chain World) (keeper : Address) (e : Execution World) :
    Prop where
  due : ∃ spec state, c.reg.jobs.getJobParts e.jobId = some (spec, state) ∧
    e.found.map Prod.snd = some state ∧ ensureDue spec state c.now = .ok ()
  assigned : assignedKeeper host c.reg e.jobId = some keeper
  accepted : AcceptsRun host c keeper e.jobId

theorem acceptsRun_of_admitted {executor keeper : Address} {info : Keeper} {admission : Admission}
    (hsolvent : Solvent host c) (hlive : c.reg.config.paused = false)
    (hexecutor : c.reg.config.executor = some executor)
    (hinfo : c.reg.keepers.infos.get keeper = some info)
    (hactive : ensureActiveKeeper c.reg.config info = .ok ())
    (hadmitted : Admitted host c.reg c.now keeper jobId admission)
    (hallowed : (resolverAllows host c.toSurroundings jobId admission.spec).answer = true)
    (hsteps : ¬ StepOverflows admission.spec admission.state c.now) :
    AcceptsRun host c keeper jobId := by
  intro ctx why hsigned hfailed
  have hauth : authorizeKeeper host ctx c.reg keeper = .ok (executor, info) :=
    authorizeKeeper_eq_ok.mpr
      ⟨hlive, hexecutor, ⟨hsigned, hsolvent.sound.keeper_ne hinfo⟩, hinfo, hactive⟩
  obtain ⟨b, r, -, hran⟩ := runJob_succeeds executor hsolvent.sound
    (UnderwaySolvent.start hsolvent keeper info) hadmitted hallowed hsteps
  have hrun := runJob_eq_ran.mpr ⟨r, hran⟩
  simp only [execute, hauth, hrun, bind, Except.bind, raise] at hfailed
  exact finish_eq_error hfailed

/-- A run that charged `missed` could have been made by `missed` at any earlier chain in which
the job stood as the run found it and nothing that matters to it was different. -/
theorem Ran.ownRun {executor keeper missed connected : Address} {b b' : Batch World}
    {r : Receipt World} {before : JobSpec} (hran : Ran host executor keeper jobId b b' r)
    (hlive : b.chain.reg.config.paused = false)
    (hexecutor : b.chain.reg.config.executor = some connected)
    (hcharged : r.charged b.chain.reg jobId b.chain.now = some missed) (hsolvent : Solvent host c)
    (hparts : c.reg.jobs.getJobParts jobId = some (before, r.admission.state))
    (hopen : OpenBefore c.reg b.chain.reg before r.admission.spec)
    (hdue : r.admission.state.nextRun ≤ c.now) (hearlier : c.now < b.chain.now)
    (hnow : b.chain.now ≤ u64Max) :
    OwnRun host c missed { jobId, executor, keeper, before := b, after := b' } := by
  obtain ⟨hreserved, hwhole⟩ := Option.filter_eq_some_iff.mp hcharged
  rw [hran.admitted.assigned, Option.filter_eq_some_iff] at hreserved
  obtain ⟨-, -, heligible⟩ := assignedKeeperFor_eq_some.mp hreserved.1
  obtain ⟨info, hinfo, hcheck⟩ := eligible_iff.mp (hopen.eligible missed heligible)
  -- A job that waits for a resolver or a leader never records misses.
  have hfree : r.admission.spec.resolver = none ∧ r.admission.spec.after = none := by
    unfold hadWholeWindow at hwhole
    split at hwhole
    · cases hwhole
    next hblocked => simpa using hblocked
  refine ⟨⟨before, _, hparts, congrArg (Option.map Prod.snd) hran.admitted.parts,
    hopen.due hran.admitted.due hearlier.le hdue⟩, ?_, ?_⟩
  · rw [assignedKeeper, hparts]
    exact hopen.assigned hreserved.1
  · refine acceptsRun_of_admitted hsolvent ?_ (hopen.executor ▸ hexecutor) hinfo hcheck
      (hopen.admitted hran.admitted hreserved.1 hfree.2 hearlier.le hdue hparts) ?_ ?_
    · refine Bool.eq_false_iff.mpr fun hpaused => ?_
      have hlater := hopen.paused hpaused
      rw [hlive] at hlater
      cases hlater
    · have hresolver := hfree.1
      rw [hopen.settings] at hresolver
      simp only at hresolver
      simp [resolverAllows, hresolver]
    · rintro ⟨-, -, htop⟩
      rw [← htop] at hnow
      exact absurd hearlier (Nat.not_lt.mpr hnow)

/-! ## Every miss of a run -/

/-- The chain stands unchanged from its own time until `t`, which the next action does not
leave behind. -/
def StandsAt (c : Chain World) (t : Timestamp) : List (Action World) → Prop
  | .advance now :: _ => c.now ≤ t ∧ t ≤ max c.now now
  | _ => t = c.now

section Misses

variable {later : List (Action World)} {action : Action World} {e : Execution World}
  {missed : Address}

/-- A miss is the keeper's own at every chain the run passed during the window. -/
theorem miss_own_at (hreach : Reachable host c)
    (halong : (machine host).Along
      (fun c action => Admissible host c action ∧ WindowKept c action) c later)
    (hran : .job e.jobId (.ran e) ∈ acts host ((machine host).run c later) action)
    (hmiss : e.RecordsMiss missed) (hfits : e.WindowFits)
    (hwindow : e.before.chain.now < c.now + e.before.chain.reg.config.gracePeriod)
    (hearlier : c.now < e.before.chain.now) : OwnRun host c missed e := by
  obtain ⟨hsound, hle, htraced⟩ := run_traced hreach.sound e.jobId halong
  obtain ⟨ctx, call, executor, info, ran, b, rfl, hauth, hruns, hmem, -⟩ := ran_mem_acts hran
  obtain ⟨hlive, hexecutor, -, -, -⟩ := authorizeKeeper_eq_ok.mp hauth
  obtain ⟨hunder, hseen, r, hrun⟩ := (runJobs_traced hsound hle htraced hruns).2 e hmem
  obtain ⟨entry, hentry, hname⟩ := hmiss
  have hcharged := hrun.charged_of_published hentry hname
  have hparts := hrun.admitted.parts
  have hconfig := hunder.toUnderway.config
  have hfit := hfits _ hparts
  dsimp only at hfit
  have hwhole : windowOpened e.before.chain.reg e.jobId r.admission.spec r.admission.state.nextRun +
      e.before.chain.reg.config.gracePeriod ≤ e.before.chain.now := by
    have hcounted := (Option.filter_eq_some_iff.mp hcharged).2
    unfold hadWholeWindow at hcounted
    split at hcounted
    · cases hcounted
    · exact (satAdd_eq hfit).ge.trans (decide_eq_true_eq.mp hcounted)
  have hdue : r.admission.state.nextRun ≤ windowOpened e.before.chain.reg e.jobId r.admission.spec
      r.admission.state.nextRun :=
        (le_max_left _ _).trans ((le_max_left _ _).trans (le_max_left _ _))
  cases hseen _ _ hparts with
  | restarted hopened =>
      exact absurd hwindow (Nat.not_lt.mpr ((Nat.add_le_add_right hopened _).trans hwhole))
  | off hoff =>
      rw [hoff] at hwindow
      exact absurd hwindow (Nat.not_lt.mpr hearlier.le)
  | past hpast =>
      rw [← hunder.now] at hpast
      exact absurd hwindow (Nat.not_lt.mpr hpast)
  | standing hbase hopen =>
      exact hrun.ownRun (hconfig ▸ hlive) (hconfig ▸ hexecutor) hcharged hreach.solvent hbase hopen
        (hdue.trans (Nat.lt_of_add_lt_add_right (hwhole.trans_lt hwindow)).le) hearlier
        (hunder.now ▸ hsound.clock)

/-- In every run whose steps restart the windows they should: when a run of a job at some time
records a missed window, then at every ledger time of the grace period before it that same run
was due and reserved for the keeper who missed it, and the registry would have taken the call
from that keeper. -/
theorem misses_are_own {t : Timestamp} (hreach : Reachable host c)
    (halong : (machine host).Along
      (fun c action => Admissible host c action ∧ WindowKept c action) c later)
    (hran : .job e.jobId (.ran e) ∈ acts host ((machine host).run c later) action)
    (hmiss : e.RecordsMiss missed) (hfits : e.WindowFits)
    (hstands : StandsAt c t (later ++ [action]))
    (hwindow : e.before.chain.now < t + e.before.chain.reg.config.gracePeriod)
    (hearlier : t < e.before.chain.now) : OwnRun host { c with now := t } missed e := by
  by_cases hnow : t = c.now
  · subst hnow
    exact miss_own_at hreach halong hran hmiss hfits hwindow hearlier
  · cases later with
    | nil =>
        obtain ⟨ctx, call, -, -, -, -, rfl, -⟩ := ran_mem_acts hran
        exact absurd hstands hnow
    | cons first rest =>
        cases first with
        | advance now =>
            obtain ⟨hlow, hhigh⟩ := hstands
            have hlater : t ≤ now := (le_max_iff.mp hhigh).resolve_left
              fun hback => hnow (le_antisymm hback hlow)
            -- Advancing by way of `t` changes nothing.
            have hsplit : step host c (.advance t) = { c with now := t } := by
              simp only [step, max_eq_right hlow]
            have hrejoin : (machine host).step { c with now := t } (.advance now) =
                (machine host).step c (.advance now) := by
              simp only [machine, step, max_eq_right hlater, max_eq_right (hlow.trans hlater)]
            have htop : t ≤ u64Max := hlater.trans halong.1.1
            have hthere : Reachable host { c with now := t } := by
              rw [← hsplit]
              exact hreach.step htop
            have hsame : (machine host).run { c with now := t } (.advance now :: rest) =
                (machine host).run c (.advance now :: rest) :=
              congrArg (fun c => (machine host).run c rest) hrejoin
            have hthen : (machine host).Along
                (fun c action => Admissible host c action ∧ WindowKept c action) { c with now := t }
                (.advance now :: rest) := by
              refine ⟨halong.1, ?_⟩
              rw [hrejoin]
              exact halong.2
            rw [← hsame] at hran
            exact miss_own_at hthere hthen hran hmiss hfits hwindow hearlier
        | _ => exact absurd hstands hnow

end Misses

/-! ## A miss before the executor was connected -/

/-- Windows of 100 seconds, two keepers, and a job whose first run is reserved for `⟨4⟩`. -/
def reservedRun : List (Action Unit) :=
  [.call ⟨[⟨3⟩]⟩ (.admin (.setKeeperWindows 100)),
    .call ⟨[⟨4⟩]⟩ (.keeper (.stake ⟨4⟩ 100)),
    .call ⟨[⟨9⟩]⟩ (.keeper (.stake ⟨9⟩ 100)),
    .call ⟨[⟨5⟩]⟩ (.job (.createJob ⟨5⟩ minutely 50)),
    .advance 1060]

def connectExecutor : Action Unit := .call ⟨[⟨3⟩]⟩ (.admin (.setExecutor ⟨6⟩))

/-- The other keeper runs the job once the window is over. -/
def runByOther : Action Unit := .call ⟨[⟨9⟩]⟩ (.run (.execute ⟨9⟩ 0))

/-- Whether the act is a run that records a miss of `missed` after a window of 100 seconds. -/
def Act.isMiss (missed : Address) : Act Unit → Bool
  | .job id (.ran e) =>
      id = e.jobId && e.published.any (fun entry => entry.2.isMissOf missed e.jobId) &&
        (e.before.chain.reg.jobs.getJobParts e.jobId).all (fun parts =>
          windowOpened e.before.chain.reg e.jobId parts.1 parts.2.nextRun +
            e.before.chain.reg.config.gracePeriod ≤ u64Max) &&
        e.before.chain.now = 1100 && e.before.chain.reg.config.gracePeriod = 100
  | _ => false

theorem Act.isMiss_spec {missed : Address} {done : List (Act Unit)}
    (h : done.any (Act.isMiss missed) = true) :
    ∃ e : Execution Unit, .job e.jobId (.ran e) ∈ done ∧ e.RecordsMiss missed ∧ e.WindowFits ∧
      e.before.chain.now = 1100 ∧ e.before.chain.reg.config.gracePeriod = 100 := by
  obtain ⟨act, hmem, hact⟩ := List.any_eq_true.mp h
  cases act with
  | keeper who act => cases hact
  | job id act =>
      cases act with
      | ran e =>
          simp only [isMiss, Bool.and_eq_true, decide_eq_true_eq, List.any_eq_true] at hact
          obtain ⟨⟨⟨⟨rfl, hmiss⟩, hfits⟩, hnow⟩, hgrace⟩ := hact
          refine ⟨e, hmem, hmiss, ?_, hnow, hgrace⟩
          intro parts hparts
          rw [hparts] at hfits
          exact of_decide_eq_true hfits
      | _ => cases hact

def reservedChain (first : List (Action Unit)) : Chain Unit :=
  (machine plainHost).run (deployment ⟨3⟩ 1000 100 10 1000) (first ++ reservedRun)

theorem reservedChain_reachable {first : List (Action Unit)}
    (halong : (machine plainHost).Along (Admissible plainHost) (deployment ⟨3⟩ 1000 100 10 1000)
      (first ++ reservedRun)) : Reachable plainHost (reservedChain first) :=
  ⟨_, _, deployment_deployed ⟨3⟩ 10 1000 (by decide) (by decide), halong, rfl⟩

/-- With the executor connected from the start, the miss is `⟨4⟩`'s own at every second. -/
theorem misses_are_own_reserved :
    ∃ e : Execution Unit, e.RecordsMiss ⟨4⟩ ∧ e.before.chain.now = 1100 ∧
      OwnRun plainHost { reservedChain [connectExecutor] with now := 1080 } ⟨4⟩ e := by
  have hrecorded : (acts plainHost ((machine plainHost).run (reservedChain [connectExecutor])
      [.advance 1100]) runByOther).any (Act.isMiss ⟨4⟩) = true := by decide
  obtain ⟨e, hran, hmiss, hfits, hnow, hgrace⟩ := Act.isMiss_spec hrecorded
  have hreach : Reachable plainHost (reservedChain [connectExecutor]) := by
    apply reservedChain_reachable
    simp [reservedRun, connectExecutor, Machine.Along, Admissible, Call.WellTyped,
      JobParams.WellTyped, minutely, u64Max, i128Max]
  refine ⟨e, hmiss, hnow, misses_are_own hreach ?_ hran hmiss hfits ⟨by decide, by decide⟩ ?_ ?_⟩
  · simp [Machine.Along, Admissible, WindowKept, u64Max]
  · rw [hnow, hgrace]
    decide
  · rw [hnow]
    decide

/-- The executor is connected in the middle of a window: `⟨4⟩` could not run the job before,
and the miss is recorded all the same. -/
theorem miss_before_connected :
    ∃ e : Execution Unit, Reachable plainHost (reservedChain []) ∧
      (machine plainHost).Along (Admissible plainHost) (reservedChain [])
        [.advance 1090, connectExecutor, .advance 1100] ∧
      .job e.jobId (.ran e) ∈ acts plainHost ((machine plainHost).run (reservedChain [])
        [.advance 1090, connectExecutor, .advance 1100]) runByOther ∧
      e.RecordsMiss ⟨4⟩ ∧ (reservedChain []).now < e.before.chain.now ∧
      e.before.chain.now < (reservedChain []).now + e.before.chain.reg.config.gracePeriod ∧
      ¬ OwnRun plainHost (reservedChain []) ⟨4⟩ e := by
  have hrecorded : (acts plainHost ((machine plainHost).run (reservedChain [])
      [.advance 1090, connectExecutor, .advance 1100]) runByOther).any (Act.isMiss ⟨4⟩) = true := by
    decide
  obtain ⟨e, hran, hmiss, hfits, hnow, hgrace⟩ := Act.isMiss_spec hrecorded
  refine ⟨e, ?_, ?_, hran, hmiss, ?_, ?_, ?_⟩
  · apply reservedChain_reachable
    simp [reservedRun, Machine.Along, Admissible, Call.WellTyped, JobParams.WellTyped,
      minutely, u64Max, i128Max]
  · simp [connectExecutor, Machine.Along, Admissible, Call.WellTyped, u64Max]
  · rw [hnow]
    decide
  · rw [hnow, hgrace]
    decide
  · intro hown
    have hfails : execute plainHost ⟨[⟨4⟩]⟩ (reservedChain []) ⟨4⟩ e.jobId =
        .error (.rejected .executorNotSet) := rfl
    cases hown.accepted _ _ (List.mem_singleton.mpr rfl) hfails

end SoroCron
