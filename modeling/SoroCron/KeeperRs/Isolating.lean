import Mathlib.Tactic.Tauto
import SoroCron.KeeperRs.Tick

/-! # Bad jobs and the Rust keeper

Some jobs stop every batch they are in. The jobs of a stopped batch are tried one by one at the
end of the queue: the good ones run, and the bad ones sit out until their quarantine ends.
-/

namespace SoroCron.KeeperRs

open KeeperBot (Prepared Submission)

variable {View : Type}

/-! ## One attempt -/

/-- A batch whose jobs all run, that pays and that is sent. -/
structure Runs (config : Config) (feeIsNative : Bool) (batch : List JobId) (answers : Answers View)
    (prepared : Prepared View) (earned : ℤ) : Prop where
  simulated : answers.simulation = some (.ok prepared)
  authorized : answers.authorized = true
  all : ranOf batch (ranFlags prepared.result batch.length) = batch
  fees : readFees answers.currentFee batch = some earned
  pays : feeIsNative = true →
    profitable earned (prepared.resourceFee + config.inclusionFee) config.minProfit = true
  cheap : feeIsNative = false → 0 < config.maxCostPerJob →
    prepared.resourceFee + config.inclusionFee ≤ config.maxCostPerJob * batch.length
  sends : config.dryRun = false
  sent : answers.send = some ()

/-- Simulating the batch fails in a way that belongs to a job, or shows an authorization that the
keeper refuses, exactly if the batch has a bad job; otherwise all its jobs run. -/
structure Answered (config : Config) (feeIsNative : Bool) (bad : JobId → Bool) (batch : List JobId)
    (answers : Answers View) : Prop where
  stops : (∃ id ∈ batch, bad id = true) → answers.simulation = some (.error .other) ∨
    ∃ prepared, answers.simulation = some (.ok prepared) ∧ answers.authorized = false
  runs : (∀ id ∈ batch, bad id = false) →
    ∃ prepared earned, Runs config feeIsNative batch answers prepared earned

/-- What `executeBatch` reports is about jobs of the batch. -/
theorem executeBatch_fits (config : Config) (batch : List JobId) (feeIsNative : Bool)
    (answers : Answers View) :
    ∀ reported ∈ (executeBatch config batch feeIsNative answers).1, reported.ran.Sublist batch := by
  intro reported hreported
  cases hsimulation : answers.simulation with
  | none =>
      simp only [executeBatch, hsimulation] at hreported
      cases hreported
  | some simulated =>
      cases simulated with
      | error rejection =>
          cases rejection with
          | registryError | other =>
              simp only [executeBatch, hsimulation] at hreported
              cases hreported
              exact List.nil_sublist _
      | ok prepared =>
          have hran : (ranOf batch (ranFlags prepared.result batch.length)).Sublist batch :=
            ranOf_sublist _ _
          simp only [executeBatch, hsimulation] at hreported
          split at hreported
          next => cases hreported; exact List.nil_sublist _
          next =>
            split at hreported
            next => cases hreported; exact List.nil_sublist _
            next =>
              split at hreported
              next => cases hreported
              next earned _ =>
                split at hreported
                next => cases hreported; exact hran
                next =>
                  split at hreported
                  next => cases hreported; exact hran
                  next =>
                    obtain ⟨-, -, rfl⟩ := Option.map_eq_some_iff.mp hreported
                    exact hran

theorem Answered.jobProblem {config : Config} {feeIsNative : Bool} {bad : JobId → Bool}
    {batch : List JobId}
    {answers : Answers View} (h : Answered config feeIsNative bad batch answers)
    (hbad : ∃ id ∈ batch, bad id = true) :
    (executeBatch config batch feeIsNative answers).1 = some .jobProblem := by
  unfold executeBatch
  rcases h.stops hbad with hother | ⟨prepared, hsimulated, hrefused⟩
  · simp only [hother]
  · simp only [hsimulated, hrefused, if_true]

theorem Runs.executed {config : Config} {feeIsNative : Bool} {batch : List JobId}
    {answers : Answers View} {prepared : Prepared View} {earned : ℤ}
    (h : Runs config feeIsNative batch answers prepared earned) (hsome : batch ≠ []) :
    (executeBatch config batch feeIsNative answers).1 = some (.executed batch earned) := by
  have hpays : ((!feeIsNative && decide (config.maxCostPerJob > 0) &&
      decide (config.maxCostPerJob * batch.length < prepared.resourceFee + config.inclusionFee)) ||
      (feeIsNative && !profitable earned
        (prepared.resourceFee + config.inclusionFee) config.minProfit)) = false := by
    cases hnative : feeIsNative with
    | true => simp [h.pays hnative]
    | false =>
        have hcheap := h.cheap hnative
        simp only [Bool.not_false, Bool.true_and, Bool.false_and, Bool.or_false,
          Bool.and_eq_false_imp, decide_eq_true_eq, decide_eq_false_iff_not, not_lt]
        exact hcheap
  simp only [executeBatch, h.simulated, h.authorized, h.all, h.fees, hsome, hpays, h.sends, h.sent,
    Bool.true_eq_false, Bool.false_eq_true, if_false, Option.map_some]

namespace Attempt

/-- The jobs that an attempt ran on chain. -/
def applied (attempt : Attempt) : List JobId :=
  match attempt.outcome with
  | some (.executed ran _) => ran
  | _ => []

/-- The job that an attempt set aside. -/
def aside (attempt : Attempt) : List JobId :=
  match attempt.outcome, attempt.batch with
  | some .jobProblem, [id] => [id]
  | _, _ => []

/-- The jobs of a batch that an attempt does not put back. -/
def settled (attempt : Attempt) : List JobId := if attempt.parts = [] then attempt.batch else []

/-- An attempt runs the good jobs of what it settles, and sets the bad ones aside. -/
structure Isolates (bad : JobId → Bool) (attempt : Attempt) : Prop where
  whole : attempt.parts = [] ∨ attempt.parts.flatten.Perm attempt.batch
  applied : attempt.applied = attempt.settled.filter fun id => !bad id
  aside : attempt.aside = attempt.settled.filter bad

end Attempt

theorem Answered.isolates {config : Config} {feeIsNative : Bool} {bad : JobId → Bool}
    {batch : List JobId}
    {answers : Answers View} (h : Answered config feeIsNative bad batch answers)
    (hsome : batch ≠ []) : Attempt.Isolates bad
      { batch, outcome := (executeBatch config batch feeIsNative answers).1 } := by
  by_cases hbad : ∃ id ∈ batch, bad id = true
  · rw [h.jobProblem hbad]
    match batch with
    | [] => exact absurd rfl hsome
    | [id] =>
        have hid : bad id = true := by simpa using hbad
        refine ⟨.inl rfl, ?_, ?_⟩
        · simp [Attempt.applied, Attempt.settled, Attempt.parts, hid]
        · simp [Attempt.aside, Attempt.settled, Attempt.parts, hid]
    | first :: second :: rest =>
        refine ⟨.inr ?_, rfl, rfl⟩
        exact List.Perm.of_eq (Worklist.flatten_singles _)
  · have hgood : ∀ id ∈ batch, bad id = false := by
      intro id hid
      by_contra hnot
      exact hbad ⟨id, hid, Bool.not_eq_false _ ▸ hnot⟩
    obtain ⟨prepared, earned, hruns⟩ := h.runs hgood
    rw [hruns.executed hsome]
    refine ⟨.inl rfl, ?_, ?_⟩
    · exact (List.filter_eq_self.mpr fun id hid => by simp [hgood id hid]).symm
    · exact (List.filter_eq_nil_iff.mpr fun id hid => by simp [hgood id hid]).symm

/-! ## One tick -/

/-- A tick of the keeper: each batch of the queue is passed to `executeBatch`, as the network
answers it. -/
def keeperRuns (View : Type) (config : Config) (feeIsNative : Bool) :
    Machine Tick (Answers View) Attempt where
  step tick answers :=
    match tick.queue with
    | [] => tick
    | batch :: _ => tick.attempt (executeBatch config batch feeIsNative answers).1
  out tick answers :=
    match tick.queue with
    | [] => []
    | batch :: _ => [{ batch, outcome := (executeBatch config batch feeIsNative answers).1 }]

/-- The network answers an attempt as it should for these bad jobs. -/
def Behaves (config : Config) (feeIsNative : Bool) (bad : JobId → Bool) (tick : Tick)
    (answers : Answers View) : Prop :=
  ∀ batch ∈ tick.queue.head?, Answered config feeIsNative bad batch answers

section KeeperRuns

variable {config : Config} {feeIsNative : Bool} {bad : JobId → Bool} {tick : Tick}
  {answers : Answers View}
  {network : List (Answers View)}

theorem keeperRuns_cons (config : Config) (feeIsNative : Bool) (answers : Answers View)
    {batch : List JobId} {queue : List (List JobId)} (hqueue : tick.queue = batch :: queue) :
    (keeperRuns View config feeIsNative).step tick answers =
        tick.attempt (executeBatch config batch feeIsNative answers).1 ∧
      (keeperRuns View config feeIsNative).out tick answers =
        [{ batch, outcome := (executeBatch config batch feeIsNative answers).1 }] := by
  simp only [keeperRuns, hqueue, and_self]

theorem keeperRuns_cases (config : Config) (feeIsNative : Bool) (tick : Tick)
    (answers : Answers View) : (∃ batch queue, tick.queue = batch :: queue) ∨
      ((keeperRuns View config feeIsNative).step tick answers = tick ∧
        (keeperRuns View config feeIsNative).out tick answers = []) := by
  cases hqueue : tick.queue with
  | nil => exact .inr (by simp only [keeperRuns, hqueue, and_self])
  | cons batch queue => exact .inl ⟨batch, queue, rfl⟩

/-- The attempts that the keeper makes are those of its queue. -/
theorem keeperRuns_work (config : Config) (feeIsNative : Bool) :
    Worklist.Works (keeperRuns View config feeIsNative)
      (fun _ _ => True) Tick.queue Attempt.batch Attempt.parts := by
  intro tick answers _
  rcases keeperRuns_cases config feeIsNative tick answers with ⟨batch, queue, hqueue⟩ |
    ⟨hsame, hnone⟩
  · obtain ⟨hstep, hout⟩ := keeperRuns_cons config feeIsNative answers hqueue
    have hfits := executeBatch_fits config batch feeIsNative answers
    refine .inr ⟨_, hout, ⟨queue, List.Perm.of_eq hqueue, ?_⟩, parts_divide hfits⟩
    rw [hstep]
    exact (attempt_cons hqueue hfits).1
  · exact .inl ⟨hnone, congrArg Tick.queue hsame⟩

theorem out_isolates (hfresh : Worklist.Fresh tick.queue)
    (hbehaves : Behaves config feeIsNative bad tick answers) :
    ∀ attempt ∈ (keeperRuns View config feeIsNative).out tick answers, attempt.Isolates bad := by
  intro attempt hattempt
  rcases keeperRuns_cases config feeIsNative tick answers with ⟨batch, queue, hqueue⟩ | ⟨-, hnone⟩
  · rw [(keeperRuns_cons config feeIsNative answers hqueue).2] at hattempt
    cases List.mem_singleton.mp hattempt
    have hbatch : batch ≠ [] := hfresh.batch_ne batch (hqueue ▸ List.mem_cons_self)
    exact (hbehaves batch (by simp [hqueue])).isolates hbatch
  · rw [hnone] at hattempt
    cases hattempt

theorem attempts_isolate (hfresh : Worklist.Fresh tick.queue)
    (hbehaves : (keeperRuns View config feeIsNative).Along
      (Behaves config feeIsNative bad) tick network) :
    ∀ attempt ∈ (keeperRuns View config feeIsNative).outputs tick network, attempt.Isolates bad :=
  Machine.outputs_forall (I := fun now => Worklist.Fresh now.queue)
    (fun _ _ hfresh _ => (keeperRuns_work config feeIsNative).fresh_step hfresh trivial)
      (fun _ _ => out_isolates)
    hfresh hbehaves

/-- What the attempts ran and set aside, once the queue is worked off. -/
theorem applied_aside (hfresh : Worklist.Fresh tick.queue)
    (hbehaves : (keeperRuns View config feeIsNative).Along
      (Behaves config feeIsNative bad) tick network)
    (hdone : ((keeperRuns View config feeIsNative).run tick network).queue = []) :
    let made := (keeperRuns View config feeIsNative).outputs tick network
    (made.flatMap Attempt.applied).Perm (tick.queue.flatten.filter fun id => !bad id) ∧
      (made.flatMap Attempt.aside).Perm (tick.queue.flatten.filter bad) := by
  have hisolate := attempts_isolate hfresh hbehaves
  have halong : (keeperRuns View config feeIsNative).Along (fun _ _ => True) tick network :=
    Machine.along_of_forall (fun _ _ => trivial) tick network
  exact ⟨(keeperRuns_work config feeIsNative).kept halong
      (fun attempt h => (hisolate attempt h).whole)
      (fun attempt h => (hisolate attempt h).applied) hdone,
    (keeperRuns_work config feeIsNative).kept halong (fun attempt h => (hisolate attempt h).whole)
      (fun attempt h => (hisolate attempt h).aside) hdone⟩

/-! ## Sitting out -/

theorem attempt_quarantine (tick : Tick) {batch : List JobId} {queue : List (List JobId)}
    (hqueue : tick.queue = batch :: queue) (outcome : Option BatchOutcome) :
    (tick.attempt outcome).quarantine =
      (Attempt.aside { batch, outcome }).foldl Quarantine.insert tick.quarantine := by
  unfold Tick.attempt Attempt.aside
  rw [hqueue]
  cases outcome with
  | none => rfl
  | some reported =>
      cases reported with
      | executed ran earned | simulated ran | skipped => rfl
      | unprofitable ran earned cost =>
          dsimp only
          split <;> rfl
      | jobProblem =>
          match batch with
          | [] | [_] | _ :: _ :: _ => rfl

/-- A tick sets aside what its attempts do. -/
theorem run_quarantine (config : Config) (feeIsNative : Bool) (tick : Tick)
    (network : List (Answers View)) :
    ((keeperRuns View config feeIsNative).run tick network).quarantine =
      (((keeperRuns View config feeIsNative).outputs tick network).flatMap Attempt.aside).foldl
        Quarantine.insert
        tick.quarantine := by
  have halong : (keeperRuns View config feeIsNative).Along (fun _ _ => True) tick network :=
    Machine.along_of_forall (fun _ _ => trivial) tick network
  have hrun := (keeperRuns View config feeIsNative).history_run
    (J := fun past now => now.quarantine =
      (past.flatMap Attempt.aside).foldl Quarantine.insert tick.quarantine)
    (by
      intro past now answers hpast _
      rcases keeperRuns_cases config feeIsNative now answers with ⟨batch, queue, hqueue⟩ |
        ⟨hsame, hnone⟩
      · obtain ⟨hstep, hout⟩ := keeperRuns_cons config feeIsNative answers hqueue
        rw [hstep, hout, attempt_quarantine now hqueue, hpast, List.flatMap_append,
          List.flatMap_singleton, List.foldl_append]
      · rw [hsame, hnone, List.append_nil]
        exact hpast)
    [] rfl halong
  exact hrun

theorem foldl_insert (quarantine : Quarantine) (ids : List JobId) :
    (ids.foldl Quarantine.insert quarantine).tick = quarantine.tick ∧
      ∀ id, (ids.foldl Quarantine.insert quarantine).untilTick id =
        if id ∈ ids then some (quarantine.tick + Quarantine.TICKS)
          else quarantine.untilTick id := by
  induction ids generalizing quarantine with
  | nil => exact ⟨rfl, fun id => rfl⟩
  | cons first rest ih =>
      obtain ⟨htick, huntil⟩ := ih (quarantine.insert first)
      refine ⟨htick, ?_⟩
      intro id
      rw [List.foldl_cons, huntil]
      by_cases hrest : id ∈ rest
      · simp [hrest, Quarantine.insert]
      · by_cases hfirst : id = first
        · simp [hfirst, Quarantine.insert]
        · simp [hrest, hfirst, Quarantine.insert]

theorem aside_subset {attempt : Attempt} {id : JobId} (hid : id ∈ attempt.aside) :
    id ∈ attempt.batch := by
  unfold Attempt.aside at hid
  split at hid
  next problem _ heq => exact heq ▸ hid
  next => cases hid

end KeeperRuns

/-- What the registry and the network answer during a tick. -/
structure TickAnswers (View : Type) where
  jobCount : ℕ
  isDue : JobId → Bool
  network : List (Answers View)

/-- Ticks one after another. -/
def keeperTicks (View : Type) (config : Config) (feeIsNative : Bool) (batchSize : ℕ) :
    Machine Quarantine (TickAnswers View) Attempt where
  step quarantine answers :=
    ((keeperRuns View config feeIsNative).run
      (Tick.start quarantine batchSize answers.jobCount answers.isDue)
      answers.network).quarantine
  out quarantine answers :=
    (keeperRuns View config feeIsNative).outputs
      (Tick.start quarantine batchSize answers.jobCount answers.isDue)
      answers.network

section KeeperTicks

variable {config : Config} {feeIsNative : Bool} {bad : JobId → Bool}

/-- A job that sits out is in no attempt of the next tick, and goes on sitting out. -/
theorem sits_out (config : Config) (feeIsNative : Bool) {quarantine : Quarantine} {id : JobId}
    {untilTick : ℕ}
    (hsits : quarantine.untilTick id = some untilTick) (hlater : quarantine.tick + 1 < untilTick)
    (batchSize : ℕ) (answers : TickAnswers View) :
    let ticks := keeperTicks View config feeIsNative batchSize
    (∀ attempt ∈ ticks.out quarantine answers, id ∉ attempt.batch) ∧
      (ticks.step quarantine answers).tick = quarantine.tick + 1 ∧
      (ticks.step quarantine answers).untilTick id = some untilTick := by
  intro ticks
  let start := Tick.start quarantine batchSize answers.jobCount answers.isDue
  have hnext : quarantine.next.untilTick id = some untilTick := by
    simp only [Quarantine.next, hsits, Option.filter_some, hlater, decide_true, if_true]
  have htried : ∀ attempt ∈ (keeperRuns View config feeIsNative).outputs start answers.network, id ∉
      attempt.batch := by
    intro attempt hattempt hid
    have hlisted := (keeperRuns_work config feeIsNative).tried_mem
      (Machine.along_of_forall (fun _ _ => trivial) start answers.network) hattempt hid
    rw [start_items] at hlisted
    have hfree := (List.mem_filter.mp hlisted).2
    rw [hnext] at hfree
    cases hfree
  obtain ⟨htick, huntil⟩ := foldl_insert quarantine.next
    (((keeperRuns View config feeIsNative).outputs start answers.network).flatMap Attempt.aside)
  have hlast : ticks.step quarantine answers = _ :=
    run_quarantine config feeIsNative start answers.network
  refine ⟨htried, ?_, ?_⟩
  · rw [hlast]
    exact htick
  · rw [hlast]
    refine (huntil id).trans ?_
    rw [if_neg, hnext]
    intro haside
    obtain ⟨attempt, hattempt, hid⟩ := List.mem_flatMap.mp haside
    exact htried attempt hattempt (aside_subset hid)

theorem sits_out_run {quarantine : Quarantine} {id : JobId} {untilTick : ℕ} {batchSize : ℕ}
    {later : List (TickAnswers View)} (hsits : quarantine.untilTick id = some untilTick)
    (hlater : quarantine.tick + later.length < untilTick) :
    ∀ attempt ∈ (keeperTicks View config feeIsNative batchSize).outputs quarantine later, id ∉
      attempt.batch := by
  induction later generalizing quarantine with
  | nil =>
      intro attempt hattempt
      cases hattempt
  | cons answers rest ih =>
      rw [List.length_cons] at hlater
      obtain ⟨htried, htick, hkept⟩ :=
        sits_out config feeIsNative hsits (by omega) batchSize answers
      intro attempt hattempt
      rcases List.mem_append.mp hattempt with hfirst | hrest
      · exact htried attempt hfirst
      · exact ih hkept (by omega) attempt hrest

/-- A tick runs the good due jobs and sets the bad ones aside, and these are in no later attempt
until their quarantine ends. -/
theorem tick_isolates {quarantine : Quarantine} (hempty : ∀ id, quarantine.untilTick id = none)
    (batchSize jobCount : ℕ) (isDue : JobId → Bool) {network : List (Answers View)}
    (hbehaves : (keeperRuns View config feeIsNative).Along (Behaves config feeIsNative bad)
      (Tick.start quarantine batchSize jobCount isDue) network) :
    let last := (keeperRuns View config feeIsNative).run
      (Tick.start quarantine batchSize jobCount isDue) network
    let made := (keeperRuns View config feeIsNative).outputs
      (Tick.start quarantine batchSize jobCount isDue) network
    let due := (List.range jobCount).filter isDue
    (2 * due.length ≤ network.length → last.queue = []) ∧
    (last.queue = [] →
      (made.flatMap Attempt.applied).Perm (due.filter fun id => !bad id) ∧
      (made.flatMap Attempt.aside).Perm (due.filter bad) ∧
      ∀ id, (last.quarantine.untilTick id).isSome = true ↔ id ∈ due ∧ bad id = true) ∧
    (∀ early attempt late, made = early ++ attempt :: late → ∀ id ∈ attempt.aside, ∀ later ∈ late,
      id ∉ later.batch) ∧
    ∀ later : List (TickAnswers View), later.length < Quarantine.TICKS →
      ∀ id ∈ made.flatMap Attempt.aside,
        ∀ attempt ∈ (keeperTicks View config feeIsNative batchSize).outputs last.quarantine later,
          id ∉ attempt.batch := by
  intro last made due
  let start := Tick.start quarantine batchSize jobCount isDue
  have hfresh : Worklist.Fresh start.queue := start_fresh quarantine batchSize jobCount isDue
  have hnobody : ∀ id, quarantine.next.untilTick id = none := by
    intro id
    simp [Quarantine.next, hempty]
  have hitems : start.queue.flatten = due := by
    refine (start_items quarantine batchSize jobCount isDue).trans ?_
    exact List.filter_eq_self.mpr fun id _ => by simp [hnobody]
  have halong : (keeperRuns View config feeIsNative).Along (fun _ _ => True) start network :=
    Machine.along_of_forall (fun _ _ => trivial) start network
  have hquarantine : last.quarantine =
      (made.flatMap Attempt.aside).foldl Quarantine.insert quarantine.next :=
    run_quarantine config feeIsNative start network
  obtain ⟨htick, huntil⟩ := foldl_insert quarantine.next (made.flatMap Attempt.aside)
  refine ⟨?_, ?_, ?_, ?_⟩
  · intro hlong
    refine (keeperRuns_work config feeIsNative).ends ?_ hfresh halong ?_
    · intro tick answers hleft hnone
      cases hqueue : tick.queue with
      | nil => exact hleft hqueue
      | cons batch queue =>
          rw [(keeperRuns_cons config feeIsNative answers hqueue).2] at hnone
          cases hnone
    · exact ((Worklist.weight_le _).trans (hitems ▸ Nat.le_refl _)).trans hlong
  · intro hdone
    obtain ⟨happlied, haside⟩ := applied_aside hfresh hbehaves hdone
    change (made.flatMap Attempt.applied).Perm (start.queue.flatten.filter _) at happlied
    change (made.flatMap Attempt.aside).Perm (start.queue.flatten.filter _) at haside
    rw [hitems] at happlied haside
    refine ⟨happlied, haside, ?_⟩
    intro id
    rw [hquarantine, huntil, ← List.mem_filter, ← haside.mem_iff]
    split
    next hid => simp [hid]
    next hid => simp [hid, hnobody]
  · intro early attempt late hsplit id hid
    have hattempt : attempt ∈ made := by
      rw [hsplit]
      exact List.mem_append_right _ List.mem_cons_self
    have hset := (attempts_isolate hfresh hbehaves attempt hattempt).aside
    have hparts : attempt.parts = [] := by
      by_contra hback
      rw [Attempt.settled, if_neg hback, List.filter_nil] at hset
      rw [hset] at hid
      cases hid
    exact (keeperRuns_work config feeIsNative).never_again hfresh halong hsplit (aside_subset hid)
      (by simp [hparts])
  · intro later hlater id hid
    have hsits : last.quarantine.untilTick id = some (quarantine.next.tick + Quarantine.TICKS) := by
      rw [hquarantine, huntil, if_pos hid]
    refine sits_out_run hsits ?_
    rw [hquarantine, htick]
    exact Nat.add_lt_add_left hlater _

end KeeperTicks

end SoroCron.KeeperRs
