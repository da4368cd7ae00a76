import Mathlib.Data.List.ReduceOption
import SoroCron.Guarantees.Remaining
import SoroCron.Guarantees.Status
import SoroCron.KeeperBot.Monitor
import SoroCron.Registry.Index

/-! # The owner is warned

The monitor raises an alert exactly where a condition begins, and a job that runs out of money was
reported before, at the check from which on it was short.
-/

namespace SoroCron.KeeperBot

open Outcome Bounded Filing

variable {options : OwnerAlertOptions} {watch : OwnerWatch} {job : Job} {jobs : List Job}
  {now : Timestamp}
  {key : JobKey} {alert : OwnerAlert}

/-! ## Conditions -/

theorem kind_of_lowBalance (h : lowBalance job now options = some alert) :
    alert.kind = .jobLowBalance := by
  obtain ⟨-, hsame⟩ := Option.ite_none_right_eq_some.mp h
  cases hsame
  rfl

theorem kind_of_pausedItself (h : pausedItself job now = some alert) : alert.kind = .jobPaused := by
  obtain ⟨-, hsame⟩ := Option.ite_none_right_eq_some.mp h
  cases hsame
  rfl

theorem kind_of_ending (h : ending job now options = some alert) : alert.kind = .jobEnding := by
  obtain ⟨-, hsame⟩ := Option.ite_none_right_eq_some.mp h
  cases hsame
  rfl

/-- The condition of a kind. -/
def condition (kind : AlertKind) (job : Job) (now : Timestamp) (options : OwnerAlertOptions) :
    Option OwnerAlert :=
  match kind with
  | .jobLowBalance => lowBalance job now options
  | .jobPaused => pausedItself job now
  | .jobEnding => ending job now options
  | _ => none

theorem mem_jobConditions :
    (key, alert) ∈ jobConditions job now options ↔
      key = (alert.kind, job.id) ∧ condition alert.kind job now options = some alert := by
  have hmem : alert ∈ [lowBalance job now options, pausedItself job now,
      ending job now options].reduceOption ↔
      condition alert.kind job now options = some alert := by
    rw [List.reduceOption_mem_iff]
    simp only [List.mem_cons, List.not_mem_nil, or_false]
    constructor
    · rintro (hfound | hfound | hfound)
      · rw [kind_of_lowBalance hfound.symm]
        exact hfound.symm
      · rw [kind_of_pausedItself hfound.symm]
        exact hfound.symm
      · rw [kind_of_ending hfound.symm]
        exact hfound.symm
    · intro hfound
      unfold condition at hfound
      split at hfound
      next => exact .inl hfound.symm
      next => exact .inr (.inl hfound.symm)
      next => exact .inr (.inr hfound.symm)
      next => cases hfound
  rw [← hmem, jobConditions, List.mem_map]
  constructor
  · rintro ⟨found, hfound, hsame⟩
    cases hsame
    exact ⟨rfl, hfound⟩
  · rintro ⟨rfl, hfound⟩
    exact ⟨alert, hfound, rfl⟩

/-- A job has one alert under a key. -/
theorem condition_unique {other : OwnerAlert} (hmem : (key, alert) ∈ jobConditions job now options)
    (hother : (key, other) ∈ jobConditions job now options) : alert = other := by
  obtain ⟨rfl, hfound⟩ := mem_jobConditions.mp hmem
  obtain ⟨hkey, hfound'⟩ := mem_jobConditions.mp hother
  have hkind : alert.kind = other.kind := congrArg Prod.fst hkey
  rw [hkind, hfound'] at hfound
  exact (Option.some.inj hfound).symm

/-- What is read of the conditions of distinct jobs. -/
theorem get_current (hdistinct : (jobs.map Job.id).Nodup) :
    (OwnerWatch.current options jobs now).get key = some alert ↔
      ∃ job ∈ jobs, (key, alert) ∈ jobConditions job now options := by
  rw [OwnerWatch.current, Listing.get_ofPairs]
  constructor
  · intro hlast
    exact List.mem_flatMap.mp hlast.mem
  · rintro ⟨job, hjob, hmem⟩
    have hin : (key, alert) ∈ jobs.flatMap fun job => jobConditions job now options :=
      List.mem_flatMap.mpr ⟨job, hjob, hmem⟩
    obtain ⟨last, hlast⟩ := Listing.exists_lastSaid hin
    obtain ⟨other, hother, hsaid⟩ := List.mem_flatMap.mp hlast.mem
    -- The key names the job, so the last entry under it is the job's own.
    have hid : other.id = job.id := by
      have hkey := (mem_jobConditions.mp hsaid).1.symm.trans (mem_jobConditions.mp hmem).1
      exact congrArg Prod.snd hkey
    have hsame : other = job := List.inj_on_of_nodup_map hdistinct hother hjob hid
    subst hsame
    rwa [condition_unique hmem hsaid]

/-! ## Checks -/

def ownerWatches : Machine OwnerWatch (List Job × Timestamp) (JobKey × OwnerAlert) where
  step watch check := (watch.check check.1 check.2).1
  out watch check := (watch.check check.1 check.2).2

/-- What a check reads of the conditions. -/
def looks (options : OwnerAlertOptions) (checks : List (List Job × Timestamp)) :
    List (Listing JobKey OwnerAlert) :=
  checks.map fun check => OwnerWatch.current options check.1 check.2

theorem options_run (watch : OwnerWatch) (checks : List (List Job × Timestamp)) :
    (ownerWatches.run watch checks).options = watch.options := by
  induction checks generalizing watch with
  | nil => rfl
  | cons check rest ih => exact ih _

/-- The monitor watches the edges of what it reads. -/
theorem active_run (watch : OwnerWatch) (checks : List (List Job × Timestamp)) :
    (ownerWatches.run watch checks).active =
      Edges.watcher.run watch.active (looks watch.options checks) := by
  induction checks generalizing watch with
  | nil => rfl
  | cons check rest ih => exact ih _

theorem keys_current :
    key ∈ (OwnerWatch.current options jobs now).entries.map Prod.fst ↔
      ∃ job ∈ jobs, ∃ alert, (key, alert) ∈ jobConditions job now options := by
  rw [← Edges.get_isSome, Option.isSome_iff_exists]
  constructor
  · rintro ⟨alert, hread⟩
    obtain ⟨job, hjob, hmem⟩ := List.mem_flatMap.mp (Listing.get_ofPairs.mp hread).mem
    exact ⟨job, hjob, alert, hmem⟩
  · rintro ⟨job, hjob, alert, hmem⟩
    have hin : (key, alert) ∈ jobs.flatMap fun job => jobConditions job now options :=
      List.mem_flatMap.mpr ⟨job, hjob, hmem⟩
    obtain ⟨last, hlast⟩ := Listing.exists_lastSaid hin
    exact ⟨last, Listing.get_ofPairs.mpr hlast⟩

/-- However often and at whatever times the monitor checks, it raises an alert exactly where a
listed job's condition holds that did not hold at the check before, with what it says now, and no
two alerts of a check have one key. -/
theorem owner_alert_iff (options : OwnerAlertOptions) (earlier : List (List Job × Timestamp))
    (jobs : List Job) (now : Timestamp) (hdistinct : (jobs.map Job.id).Nodup) :
    (((((ownerWatches.run ⟨options, []⟩ earlier).check jobs now).2).map Prod.fst).Nodup) ∧
      ∀ key alert, (key, alert) ∈ ((ownerWatches.run ⟨options, []⟩ earlier).check jobs now).2 ↔
        (∃ job ∈ jobs, (key, alert) ∈ jobConditions job now options) ∧
          ∀ last ∈ earlier.getLast?, ∀ job ∈ last.1, ∀ old,
            (key, old) ∉ jobConditions job last.2 options := by
  have hoptions := options_run ⟨options, []⟩ earlier
  refine ⟨?_, ?_⟩
  · have hkept :=
      (OwnerWatch.current (ownerWatches.run ⟨options, []⟩ earlier).options jobs now).distinct
    exact hkept.sublist (List.filter_sublist.map Prod.fst)
  · intro key alert
    have hfresh : (key, alert) ∈ ((ownerWatches.run ⟨options, []⟩ earlier).check jobs now).2 ↔
        (OwnerWatch.current options jobs now).get key = some alert ∧
          key ∉ Edges.watcher.run [] (looks options earlier) := by
      rw [← active_run ⟨options, []⟩ earlier, ← Edges.mem_fresh]
      simp only [OwnerWatch.check, hoptions]
    rw [hfresh, get_current hdistinct, Edges.mem_run, looks, List.getLast?_map]
    refine and_congr_right fun _ => ?_
    constructor
    · intro hclear last hlast job hjob old hmem
      apply hclear
      refine ⟨_, Option.mem_map.mpr ⟨last, hlast, rfl⟩, ?_⟩
      rw [Edges.get_isSome, keys_current]
      exact ⟨job, hjob, old, hmem⟩
    · rintro hclear ⟨found, hfound, hsome⟩
      obtain ⟨last, hlast, rfl⟩ := Option.mem_map.mp hfound
      rw [Edges.get_isSome, keys_current] at hsome
      obtain ⟨job, hjob, old, hmem⟩ := hsome
      exact hclear last hlast job hjob old hmem

/-- A job that is read with money for one run and then for none is reported once. -/
theorem owner_alert_iff_once :
    let job : Job := jobView 3 (minutely.toSpec ⟨5⟩) ⟨1060, 10, 4, 0, true, 0⟩
    let options : OwnerAlertOptions := ⟨2, 0⟩
    (∃ alert, ((.jobLowBalance, 3), alert) ∈
      ((ownerWatches.run ⟨options, []⟩ []).check [job] 1000).2) ∧
      ∀ alert, ((.jobLowBalance, 3), alert) ∉
        ((ownerWatches.run ⟨options, []⟩ [([job], 1000)]).check
          [{ job with balance := 0 }] 1060).2 := by
  intro job options
  have hfirst := (owner_alert_iff options [] [job] 1000 (by decide)).2
  have hsecond :=
    (owner_alert_iff options [([job], 1000)] [{ job with balance := 0 }] 1060 (by decide)).2
  obtain ⟨alert, halert⟩ : ∃ alert, lowBalance job 1000 options = some alert :=
    Option.isSome_iff_exists.mp (by decide)
  have hmem : ((.jobLowBalance, 3), alert) ∈ jobConditions job 1000 options := by
    rw [mem_jobConditions, kind_of_lowBalance halert]
    exact ⟨rfl, halert⟩
  refine ⟨⟨alert, (hfirst _ _).mpr ⟨⟨job, List.mem_singleton_self _, hmem⟩, ?_⟩⟩, ?_⟩
  · intro last hlast
    cases hlast
  · intro other hother
    obtain ⟨-, hclear⟩ := (hsecond _ _).mp hother
    exact hclear _ rfl job (List.mem_singleton_self _) alert hmem

/-! ## Between two readings -/

section Readings

variable {World : Type} {host : Host World} {c : Chain World} {spec spec' : JobSpec}
  {state state' : JobState}
  {id : JobId} {past : List (JobAct World)} {minRuns : ℤ} {actions : List (Action World)}

/-- A run, or money from someone. -/
def Steady : JobAct World → Prop
  | .ran _ | .funded _ => True
  | _ => False

instance (act : JobAct World) : Decidable (Steady act) :=
  match act with
  | .ran _ | .funded _ => .isTrue trivial
  | .created .. | .updated _ | .withdrawn _ | .activeSet _ | .handedOver | .cancelled =>
      .isFalse False.elim

/-- The most that a run of the job can cost. -/
def ceiling (spec : JobSpec) : ℤ := max spec.feePerRun spec.maxFeePerRun

/-- Runs until the limit. -/
def left (spec : JobSpec) (state : JobState) : ℤ := max ((spec.maxRuns : ℤ) - state.runs) 0

/-- A job with settings `spec` that was in `state` before everything in `past`. -/
structure Since (spec : JobSpec) (state : JobState) (past : List (JobAct World)) (spec' : JobSpec)
    (state' : JobState) : Prop where
  same : spec' = spec
  active : state'.active = true → state.active = true
  limit : spec.maxRuns = 0 ∨ state'.runs < spec.maxRuns → spec.maxRuns = 0 ∨
    state.runs < spec.maxRuns
  balance : state.balance ≤ state'.balance + runCount past * ceiling spec
  covered : spec.maxFeePerRun ≤ spec.feePerRun → left spec state * spec.feePerRun ≤ state.balance →
    left spec state' * spec.feePerRun ≤ state'.balance

def PhaseSince (spec : JobSpec) (state : JobState) (past : List (JobAct World)) : JobPhase → Prop
  | .live spec' state' => Since spec state past spec' state'
  | .future | .gone => False

theorem JobChange.since {now : Timestamp} {act : JobAct World} {before after : JobPhase}
    (hword : spec.maxRuns ≤ u32Max) (hbefore : PhaseSince spec state past before)
    (hsteady : Steady act) (h : JobChange host now act before after) :
    PhaseSince spec state (past ++ [act]) after := by
  cases h with
  | created => exact hbefore.elim
  | updated => exact hsteady.elim
  | withdrawn => exact hsteady.elim
  | activeSet => exact hsteady.elim
  | handedOver => exact hsteady.elim
  | cancelled => exact hsteady.elim
  | @funded amount spec' state' hpos =>
      have hcount : runCount (past ++ [JobAct.funded amount]) = runCount past := runCount_append _ _
      have hbalance := hbefore.balance
      refine ⟨hbefore.same, hbefore.active, hbefore.limit, ?_, ?_⟩
      · rw [hcount]
        dsimp only
        omega
      · intro hflat hcovered
        have hpast := hbefore.covered hflat hcovered
        change left spec state' * spec.feePerRun ≤ state'.balance + amount
        omega
  | @ran execution r hnow hlive hconfig hjobs hran =>
      obtain ⟨hactive, hruns, -, hfunded, -⟩ := ensureDue_eq_ok.mp hran.admitted.due
      have hspec : r.admission.spec = spec := hbefore.same
      rw [hspec] at hruns
      have hceiling : r.fee ≤ ceiling spec := hspec ▸ rampedFee_le hran.priced.fee
      have hcount : runCount (past ++ [.ran execution]) = runCount past + 1 := runCount_append _ _
      have hbalance := hbefore.balance
      have hcharged := hran.balance_eq
      refine ⟨hspec, fun _ => hbefore.active hactive, fun _ => hbefore.limit hruns, ?_, ?_⟩
      · rw [hcount]
        change state.balance ≤ r.balance + ((runCount past + 1 : ℕ) : ℤ) * ceiling spec
        push_cast
        rw [add_mul, one_mul]
        omega
      · intro hflat hcovered
        have hpast := hbefore.covered hflat hcovered
        have hexact : r.fee ≤ spec.feePerRun := hceiling.trans (max_le le_rfl hflat)
        have hleast : spec.feePerRun ≤ r.admission.state.balance := hspec ▸ hfunded
        change max ((spec.maxRuns : ℤ) - (satAdd32 r.admission.state.runs 1 : ℕ)) 0 *
          spec.feePerRun ≤ r.balance
        rcases hruns with hnone | hless
        · rw [hnone, max_eq_right (by omega), zero_mul]
          omega
        · -- One run fewer is left, and the money for it is gone.
          have hnext : satAdd32 r.admission.state.runs 1 = r.admission.state.runs + 1 :=
            satAdd_eq (by omega)
          have hone : left spec r.admission.state =
              max ((spec.maxRuns : ℤ) - (r.admission.state.runs + 1 : ℕ)) 0 + 1 := by
            unfold left
            omega
          rw [hone, add_mul, one_mul] at hpast
          rw [hnext]
          omega

/-- What may happen to a job between two readings: it is run and funded, and not run more often
than the monitor allows for. -/
structure RunsOrFunds (host : Host World) (spec : JobSpec) (minRuns : ℤ) (id : JobId)
    (c : Chain World) (actions : List (Action World)) : Prop where
  admissible : (machine host).Along (Admissible host) c actions
  steady : ∀ act ∈ jobActs id ((machine host).outputs c actions), Steady act
  few : runCount (jobActs id ((machine host).outputs c actions)) * ceiling spec + spec.feePerRun ≤
    minRuns * spec.feePerRun

theorem RunsOrFunds.since (h : RunsOrFunds host spec minRuns id c actions) (hsound : c.Sound host)
    (hword : spec.maxRuns ≤ u32Max)
    (hparts : c.reg.jobs.getJobParts id = some (spec, state)) :
    ∃ state', ((machine host).run c actions).reg.jobs.getJobParts id = some (spec, state') ∧
      Since spec state (jobActs id ((machine host).outputs c actions)) spec state' := by
  obtain ⟨now, -, hlife⟩ := job_life hsound id h.admissible
  have hstart : PhaseSince spec state ([] : List (JobAct World)) (c.reg.jobs.phase id) := by
    rw [phase_of_parts hparts]
    exact ⟨rfl, fun h => h, fun h => h, by simp [runCount, runsIn], fun _ h => h⟩
  have hlast := (hlife.restrict h.steady).history (J := fun past phase =>
    PhaseSince spec state past phase.2) ?_ []
    hstart
  · rw [List.nil_append] at hlast
    dsimp only at hlast
    cases hphase : ((machine host).run c actions).reg.jobs.phase id with
    | future =>
        rw [hphase] at hlast
        exact hlast.elim
    | live spec' state' =>
        rw [hphase] at hlast
        obtain rfl : spec' = spec := hlast.same
        exact ⟨state', parts_of_phase hphase, hlast⟩
    | gone =>
        rw [hphase] at hlast
        exact hlast.elim
  · rintro past act before after hpast ⟨hsteady, -, hchange⟩
    exact JobChange.since hword hpast hsteady hchange

theorem jobStatus_active {now : Timestamp} (hactive : state.active = true) :
    Sdk.jobStatus (jobView id spec state) now =
      if spec.maxRuns ≠ 0 ∧ spec.maxRuns ≤ state.runs then .completed
      else if spec.endAt ≠ 0 ∧ spec.endAt ≤ now then .expired
      else if state.balance < spec.feePerRun then .underfunded
      else if now < state.nextRun then .scheduled
      else .due := by
  simp only [Sdk.jobStatus, jobView, hactive, Bool.true_eq_false, if_false]

theorem underfunded_iff {now : Timestamp} :
    Sdk.jobStatus (jobView id spec state) now = .underfunded ↔
      state.active = true ∧ (spec.maxRuns = 0 ∨ state.runs < spec.maxRuns) ∧
        (spec.endAt = 0 ∨ now < spec.endAt) ∧ state.balance < spec.feePerRun := by
  cases hactive : state.active with
  | false =>
      rw [jobStatus_inactive id spec now hactive]
      split <;> simp
  | true =>
      rw [jobStatus_active hactive]
      split
      next hdone => exact iff_of_false (by rintro ⟨⟩) fun h => by omega
      next hruns =>
        split
        next hover =>
          exact iff_of_false (by rintro ⟨⟩) fun h => h.2.2.1.elim hover.1 (Nat.not_lt.mpr hover.2)
        next hend =>
          split
          next hempty =>
            refine iff_of_true rfl ⟨rfl, by omega, ?_, hempty⟩
            exact (Decidable.not_and_iff_not_or_not.mp hend).imp not_not.mp Nat.lt_of_not_le
          next hfunded =>
            refine iff_of_false ?_ fun h => hfunded h.2.2.2
            split <;> simp

/-- A job that nothing else stopped is running. -/
theorem isRunning_of {now : Timestamp} (hactive : state.active = true)
    (hruns : spec.maxRuns = 0 ∨ state.runs < spec.maxRuns)
    (hend : spec.endAt = 0 ∨ now < spec.endAt) :
    isRunning (Sdk.jobStatus (jobView id spec state) now) = true := by
  have hlimit : ¬(spec.maxRuns ≠ 0 ∧ spec.maxRuns ≤ state.runs) := by omega
  have hopen : ¬(spec.endAt ≠ 0 ∧ spec.endAt ≤ now) := fun h => hend.elim h.1 (Nat.not_lt.mpr h.2)
  rw [jobStatus_active hactive, if_neg hlimit, if_neg hopen]
  split
  · rfl
  · split <;> rfl

theorem fundedRuns_eq (hfee : 0 < spec.feePerRun) (hbalance : 0 ≤ state.balance) :
    fundedRuns (jobView id spec state) = (state.balance / spec.feePerRun,
      if spec.maxRuns = 0 then true
        else decide (state.balance / spec.feePerRun < left spec state)) := by
  have hfunded : (if 0 < spec.feePerRun then state.balance.tdiv spec.feePerRun else 0) =
      state.balance / spec.feePerRun := by
    rw [if_pos hfee, Int.tdiv_eq_ediv_of_nonneg hbalance]
  rw [← hfunded]
  rfl

theorem lowBalance_isSome {now : Timestamp} : (lowBalance job now options).isSome = true ↔
    isRunning (Sdk.jobStatus job now) = true ∧ (fundedRuns job).2 = true ∧
      (fundedRuns job).1 < options.minRuns := by
  rw [lowBalance, Option.isSome_ite]

/-- A job that runs out of money was short when it was read last. -/
theorem RunsOrFunds.short (h : RunsOrFunds host spec options.minRuns id c actions)
    (hsound : c.Sound host) (hspec : spec.Sound) (hword : spec.maxRuns ≤ u32Max)
    (hcounted : spec.maxRuns = 0 ∨ spec.maxFeePerRun ≤ spec.feePerRun)
    (hparts : c.reg.jobs.getJobParts id = some (spec, state))
    (hlater : ((machine host).run c actions).reg.jobs.getJobParts id = some (spec, state'))
    {seen now : Timestamp}
    (hclock : seen ≤ now) (hstalled : Sdk.jobStatus (jobView id spec state') now = .underfunded) :
    (lowBalance (jobView id spec state) seen options).isSome = true := by
  obtain ⟨found, hfound, hsince⟩ := h.since hsound hword hparts
  obtain rfl : found = state' := congrArg Prod.snd (Option.some.inj (hfound.symm.trans hlater))
  obtain ⟨hactive, hruns, hend, hempty⟩ := underfunded_iff.mp hstalled
  have hfee := hspec.fee_pos
  have hbalance :=
    (hsound.jobs.states id state (JobTable.states_get_of_parts hparts)).balance_nonneg
  have hrunning : isRunning (Sdk.jobStatus (jobView id spec state) seen) = true :=
    isRunning_of (hsince.active hactive) (hsince.limit hruns) (hend.imp_right hclock.trans_lt)
  -- Money for every run that is left would still be there.
  have hshort : (fundedRuns (jobView id spec state)).2 = true := by
    rw [fundedRuns_eq hfee hbalance]
    dsimp only
    split
    next => rfl
    next hlimited =>
      rw [decide_eq_true_eq]
      by_contra hcovered
      have hless := hruns.resolve_left hlimited
      have hflat := hcounted.resolve_left hlimited
      have hpaid : left spec state * spec.feePerRun ≤ state.balance := by
        rw [← Int.le_ediv_iff_mul_le hfee]
        exact not_lt.mp hcovered
      have hkept := hsince.covered hflat hpaid
      have hone : 1 ≤ left spec found := by
        unfold left
        omega
      have hleast := mul_le_mul_of_nonneg_right hone hfee.le
      omega
  have hfew : (fundedRuns (jobView id spec state)).1 < options.minRuns := by
    rw [fundedRuns_eq hfee hbalance]
    by_contra hmany
    have hpaid := (Int.le_ediv_iff_mul_le hfee).mp (not_lt.mp hmany)
    have hspent := hsince.balance
    have hbudget := h.few
    omega
  exact lowBalance_isSome.mpr ⟨hrunning, hshort, hfew⟩

end Readings

/-! ## Checks of a living chain -/

section Monitoring

variable {World : Type} {host : Host World} {c : Chain World} {spec : JobSpec} {state : JobState}
  {id : JobId}

/-- The monitor, the chain when it last read the job and its clock then. -/
structure Monitored (World : Type) where
  watch : OwnerWatch
  chain : Chain World
  clock : Timestamp

/-- What happens until the job is read again, the jobs that are read, and the time by the
monitor's clock. -/
structure MonitorRound (World : Type) where
  before : List (Action World)
  jobs : List Job
  now : Timestamp

def monitors (host : Host World) :
    Machine (Monitored World) (MonitorRound World) (JobKey × OwnerAlert) where
  step s round :=
    { watch := (s.watch.check round.jobs round.now).1
      chain := (machine host).run s.chain round.before
      clock := round.now }
  out s round := (s.watch.check round.jobs round.now).2

/-- The job is listed as it is found, no sooner than the clock allows, and few runs were made. -/
structure CheckedRound (host : Host World) (spec : JobSpec) (minRuns : ℤ) (id : JobId)
    (s : Monitored World) (round : MonitorRound World) : Prop where
  allowed : RunsOrFunds host spec minRuns id s.chain round.before
  clock : s.clock ≤ round.now
  listed : ∀ job, ((machine host).run s.chain round.before).reg.jobs.getJob id = some job →
    job ∈ round.jobs

/-- What a check of a round reads of the conditions. -/
def look (options : OwnerAlertOptions) (round : MonitorRound World) : Listing JobKey OwnerAlert :=
  OwnerWatch.current options round.jobs round.now

theorem CheckedRound.sound {s : Monitored World} {round : MonitorRound World} {minRuns : ℤ}
    (hsound : s.chain.Sound host) (h : CheckedRound host spec minRuns id s round) :
    ((monitors host).step s round).chain.Sound host :=
  Machine.invariant_run (fun _ _ hsound hadm => step_sound hsound hadm) hsound h.allowed.admissible

end Monitoring

end SoroCron.KeeperBot
