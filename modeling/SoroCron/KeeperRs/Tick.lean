import Mathlib.Data.List.Range
import SoroCron.Foundation.Worklist
import SoroCron.KeeperRs.Registry

/-! # A tick of the Rust keeper

The due jobs go out in batches, one after another. A batch that one of its jobs stops is tried
again job by job, at the end of the queue; one that does not pay is tried again in halves at
once. Every due job is accounted for, whatever the attempts come to.
-/

namespace SoroCron.KeeperRs

structure TickSummary where
  checked : ℕ := 0
  due : ℕ := 0
  batches : ℕ := 0
  executed : ℕ := 0
  skipped : ℕ := 0
  unprofitable : ℕ := 0
  failed : ℕ := 0
  earned : ℤ := 0
  /-- Due jobs set aside, counted in `skipped` too. -/
  quarantined : ℕ := 0

/-- Jobs set aside after stopping their batch on their own, each until some tick. -/
structure Quarantine where
  untilTick : JobId → Option ℕ := fun _ => none
  tick : ℕ := 0

namespace Quarantine

def TICKS : ℕ := 30

/-- Advances one tick and releases jobs whose time is up. -/
def next (quarantine : Quarantine) : Quarantine where
  tick := quarantine.tick + 1
  untilTick id := (quarantine.untilTick id).filter fun untilTick => quarantine.tick + 1 < untilTick

def insert (quarantine : Quarantine) (id : JobId) : Quarantine :=
  { quarantine with
    untilTick := fun other =>
      if other = id then some (quarantine.tick + TICKS) else quarantine.untilTick other }

end Quarantine

/-- A batch is at most 20 jobs, whatever size is configured. -/
def clampSize (size : ℕ) : ℕ := if size < 1 then 1 else if 20 < size then 20 else size

def batches (ids : List JobId) (size : ℕ) : List (List JobId) :=
  Worklist.slices (clampSize size) ids

structure Tick where
  summary : TickSummary
  quarantine : Quarantine
  queue : List (List JobId)

/-- A tick once the registry has told which of its jobs are due. -/
def Tick.start (quarantine : Quarantine) (batchSize jobCount : ℕ) (isDue : JobId → Bool) : Tick :=
  let quarantine := quarantine.next
  let allDue := (List.range jobCount).filter isDue
  let due := allDue.filter fun id => (quarantine.untilTick id).isNone
  let quarantined := allDue.length - due.length
  { summary := { checked := jobCount, due := allDue.length, quarantined, skipped := quarantined }
    quarantine
    queue := batches due batchSize }

/-- Takes the first batch of the queue; `outcome` is what `executeBatch` made of it, if it
returned. -/
def Tick.attempt (tick : Tick) (outcome : Option BatchOutcome) : Tick :=
  match tick.queue with
  | [] => tick
  | batch :: queue =>
      let size := batch.length
      let summary := tick.summary
      match outcome, batch with
      | some .jobProblem, [id] =>
          { quarantine := tick.quarantine.insert id
            summary := { summary with
              quarantined := summary.quarantined + 1, skipped := summary.skipped + 1 }
            queue }
      -- No batch is empty, so this one has several jobs.
      | some .jobProblem, batch => { tick with queue := queue ++ batch.map fun id => [id] }
      | some (.executed ran earned), _ =>
          { tick with
            queue
            summary := { summary with
              batches := summary.batches + 1
              executed := summary.executed + ran.length
              skipped := summary.skipped + (size - ran.length)
              earned := summary.earned + earned } }
      | some (.simulated ran), _ =>
          { tick with
            queue
            summary := { summary with
              executed := summary.executed + ran.length
              skipped := summary.skipped + (size - ran.length) } }
      | some .skipped, _ => { tick with
          queue, summary := { summary with skipped := summary.skipped + size } }
      | some (.unprofitable ran _ _), _ =>
          if 1 < ran.length then
            { tick with
              queue := Worklist.halves ran ++ queue
              summary := { summary with skipped := summary.skipped + (size - ran.length) } }
          else
            { tick with
              queue
              summary := { summary with
                unprofitable := summary.unprofitable + ran.length
                skipped := summary.skipped + (size - ran.length) } }
      | none, _ => { tick with queue, summary := { summary with failed := summary.failed + size } }

/-- A batch passed to `executeBatch`, and what came of it. -/
structure Attempt where
  batch : List JobId
  outcome : Option BatchOutcome

def attempts : Machine Tick (Option BatchOutcome) Attempt where
  step := Tick.attempt
  out tick outcome :=
    match tick.queue with
    | [] => []
    | batch :: _ => [{ batch, outcome }]

/-! ## What an attempt leaves -/

/-- The jobs that would run, as far as an outcome lists them. -/
def BatchOutcome.ran : BatchOutcome → List JobId
  | .executed ran _ | .simulated ran | .unprofitable ran _ _ => ran
  | .skipped | .jobProblem => []

namespace Attempt

/-- The jobs reported as executed, or as those that would be in a dry run. -/
def executed (attempt : Attempt) : List JobId :=
  match attempt.outcome with
  | some (.executed ran _) | some (.simulated ran) => ran
  | _ => []

/-- The batches that the tick puts back into its queue. -/
def parts (attempt : Attempt) : List (List JobId) :=
  match attempt.outcome, attempt.batch with
  | some .jobProblem, [_] => []
  | some .jobProblem, batch => batch.map fun id => [id]
  | some (.unprofitable ran _ _), _ => if 1 < ran.length then Worklist.halves ran else []
  | _, _ => []

end Attempt

/-- An outcome lists only jobs of the batch it is about. -/
def Fits (tick : Tick) (outcome : Option BatchOutcome) : Prop :=
  ∀ batch ∈ tick.queue.head?, ∀ reported ∈ outcome, reported.ran.Sublist batch

instance (tick : Tick) (outcome : Option BatchOutcome) : Decidable (Fits tick outcome) :=
  inferInstanceAs
    (Decidable (∀ batch ∈ tick.queue.head?, ∀ reported ∈ outcome, reported.ran.Sublist batch))

/-- The jobs that the counters of a tick account for. -/
def TickSummary.accounted (summary : TickSummary) : ℕ :=
  summary.executed + summary.skipped + summary.unprofitable + summary.failed

theorem parts_divide {batch : List JobId} {outcome : Option BatchOutcome}
    (hfits : ∀ reported ∈ outcome, reported.ran.Sublist batch) :
    Worklist.Divides batch (Attempt.parts { batch, outcome }) := by
  cases outcome with
  | none => exact Worklist.nil_divides _
  | some reported =>
      cases reported with
      | jobProblem =>
          match batch with
          | [] => exact Worklist.singles_divides nofun
          | [_] => exact Worklist.nil_divides _
          | _ :: _ :: _ => exact Worklist.singles_divides (by simp)
      | unprofitable ran earned cost =>
          dsimp only [Attempt.parts]
          split
          next hseveral => exact Worklist.halves_divides (hfits _ rfl) hseveral
          next => exact Worklist.nil_divides _
      | executed ran earned | simulated ran => exact Worklist.nil_divides _
      | skipped => exact Worklist.nil_divides _

/-- What an attempt of the first batch does to the tick. -/
theorem attempt_cons {tick : Tick} {batch : List JobId} {queue : List (List JobId)}
    {outcome : Option BatchOutcome} (hqueue : tick.queue = batch :: queue)
    (hfits : ∀ reported ∈ outcome, reported.ran.Sublist batch) :
    (tick.attempt outcome).queue.Perm (Attempt.parts { batch, outcome } ++ queue) ∧
      (tick.attempt outcome).summary.due = tick.summary.due ∧
      (tick.attempt outcome).summary.accounted + (Attempt.parts { batch, outcome }).flatten.length =
        tick.summary.accounted + batch.length := by
  unfold Tick.attempt Attempt.parts TickSummary.accounted
  rw [hqueue]
  cases outcome with
  | none => exact ⟨List.Perm.refl _, rfl, by dsimp only [List.flatten_nil, List.length_nil]; omega⟩
  | some reported =>
      have hran := (hfits reported rfl).length_le
      cases reported with
      | jobProblem =>
          match batch with
          | [id] =>
              refine ⟨List.Perm.refl _, rfl, ?_⟩
              dsimp only [List.flatten_nil, List.length_nil, List.length_singleton]
              omega
          | [] => exact ⟨List.perm_append_comm, rfl, rfl⟩
          | first :: second :: rest =>
              refine ⟨List.perm_append_comm, rfl, ?_⟩
              rw [Worklist.flatten_singles]
      | executed ran earned | simulated ran =>
          refine ⟨List.Perm.refl _, rfl, ?_⟩
          dsimp only [BatchOutcome.ran, List.flatten_nil, List.length_nil] at hran ⊢
          omega
      | skipped =>
          refine ⟨List.Perm.refl _, rfl, ?_⟩
          dsimp only [List.flatten_nil, List.length_nil]
          omega
      | unprofitable ran earned cost =>
          dsimp only [BatchOutcome.ran] at hran
          by_cases hseveral : 1 < ran.length
          · simp only [hseveral, if_true]
            refine ⟨List.Perm.refl _, trivial, ?_⟩
            rw [Worklist.flatten_halves]
            omega
          · simp only [hseveral, if_false]
            refine ⟨List.Perm.refl _, trivial, ?_⟩
            dsimp only [List.flatten_nil, List.length_nil]
            omega

/-- The queue is a work list. -/
theorem attempts_work : Worklist.Works attempts Fits Tick.queue Attempt.batch Attempt.parts := by
  intro tick outcome hfits
  cases hqueue : tick.queue with
  | nil =>
      refine .inl ⟨?_, ?_⟩
      · simp only [attempts, hqueue]
      · simp only [attempts, Tick.attempt, hqueue]
  | cons batch queue =>
      have hbatch : ∀ reported ∈ outcome, reported.ran.Sublist batch :=
        hfits batch (by simp [hqueue])
      refine .inr ⟨{ batch, outcome }, ?_,
        ⟨queue, List.Perm.refl _, (attempt_cons hqueue hbatch).1⟩, parts_divide hbatch⟩
      simp only [attempts, hqueue]

/-! ## A whole tick -/

theorem clampSize_bounds (size : ℕ) : 1 ≤ clampSize size ∧ clampSize size ≤ 20 := by
  unfold clampSize
  split
  · omega
  · split <;> omega

/-- The due jobs that are not sitting out. -/
def waiting (quarantine : Quarantine) (jobCount : ℕ) (isDue : JobId → Bool) : List JobId :=
  ((List.range jobCount).filter isDue).filter fun id => (quarantine.next.untilTick id).isNone

theorem start_items (quarantine : Quarantine) (batchSize jobCount : ℕ) (isDue : JobId → Bool) :
    (Tick.start quarantine batchSize jobCount isDue).queue.flatten =
      waiting quarantine jobCount isDue :=
  Worklist.flatten_slices (clampSize_bounds batchSize).1 _

theorem start_fresh (quarantine : Quarantine) (batchSize jobCount : ℕ) (isDue : JobId → Bool) :
    Worklist.Fresh (Tick.start quarantine batchSize jobCount isDue).queue := by
  constructor
  case batch_ne =>
    intro batch hbatch
    exact (Worklist.mem_slices (clampSize_bounds batchSize).1 hbatch).1
  case distinct =>
    rw [start_items]
    exact (List.nodup_range.filter _).filter _

/-- The counters account for every due job that is not left in the queue. -/
def Accounts (due : ℕ) (tick : Tick) : Prop :=
  tick.summary.due = due ∧ tick.summary.accounted + tick.queue.flatten.length = due

theorem accounts_run {due : ℕ} {tick : Tick} {outcomes : List (Option BatchOutcome)}
    (hstart : Accounts due tick)
    (hfits : attempts.Along Fits tick outcomes) : Accounts due (attempts.run tick outcomes) := by
  refine attempts.invariant_run ?_ hstart hfits
  rintro tick outcome ⟨hdue, haccounted⟩ hfits
  cases hqueue : tick.queue with
  | nil =>
      have hsame : attempts.step tick outcome = tick := by
        simp only [attempts, Tick.attempt, hqueue]
      rw [hsame]
      exact ⟨hdue, haccounted⟩
  | cons batch queue =>
      have hbatch : ∀ reported ∈ outcome, reported.ran.Sublist batch :=
        hfits batch (by simp [hqueue])
      obtain ⟨hnext, hsame, hcounted⟩ := attempt_cons hqueue hbatch
      have hleft := hnext.flatten.length_eq
      rw [List.flatten_append, List.length_append] at hleft
      rw [hqueue, List.flatten_cons, List.length_append] at haccounted
      refine ⟨hsame.trans hdue, ?_⟩
      change (tick.attempt outcome).summary.accounted +
        (tick.attempt outcome).queue.flatten.length = due
      omega

theorem executed_subset {attempt : Attempt}
    (hfits : ∀ reported ∈ attempt.outcome, reported.ran.Sublist attempt.batch)
    {id : JobId} (hid : id ∈ attempt.executed) :
    id ∈ attempt.batch ∧ id ∉ attempt.parts.flatten := by
  obtain ⟨batch, outcome⟩ := attempt
  cases outcome with
  | none => cases hid
  | some reported =>
      cases reported with
      | executed ran earned | simulated ran => exact ⟨(hfits _ rfl).subset hid, List.not_mem_nil⟩
      | skipped | jobProblem => cases hid
      | unprofitable ran earned cost => cases hid

theorem attempt_fits {tick : Tick} {outcomes : List (Option BatchOutcome)}
    (hfits : attempts.Along Fits tick outcomes) : ∀ attempt ∈ attempts.outputs tick outcomes,
      ∀ reported ∈ attempt.outcome, reported.ran.Sublist attempt.batch := by
  refine Machine.outputs_forall (I := fun _ => True) (fun _ _ _ _ => trivial) ?_ trivial hfits
  intro tick outcome _ hfits attempt hattempt
  cases hqueue : tick.queue with
  | nil =>
      simp only [attempts, hqueue] at hattempt
      cases hattempt
  | cons batch queue =>
      simp only [attempts, hqueue] at hattempt
      cases List.mem_singleton.mp hattempt
      exact hfits batch (by simp [hqueue])

/-- Whatever the attempts come to, a tick ends after fewer than two for each due job and accounts
for every one of them; it passes every job that is not sitting out in a batch of 1 to 20 distinct
jobs, and none again once it was reported as executed. -/
theorem tick_accounts (quarantine : Quarantine) (batchSize jobCount : ℕ) (isDue : JobId → Bool)
    {outcomes : List (Option BatchOutcome)}
    (hfits : attempts.Along Fits (Tick.start quarantine batchSize jobCount isDue) outcomes) :
    let start := Tick.start quarantine batchSize jobCount isDue
    let last := attempts.run start outcomes
    let made := attempts.outputs start outcomes
    let due := (List.range jobCount).filter isDue
    made.length ≤ 2 * due.length ∧ (2 * due.length ≤ outcomes.length → last.queue = []) ∧
    (last.queue = [] → last.summary.due = due.length ∧
      last.summary.due = last.summary.executed + last.summary.skipped + last.summary.unprofitable +
        last.summary.failed ∧
      ∀ id ∈ due, quarantine.next.untilTick id = none → ∃ attempt ∈ made, id ∈ attempt.batch) ∧
    (∀ attempt ∈ made, 1 ≤ attempt.batch.length ∧ attempt.batch.length ≤ 20 ∧ attempt.batch.Nodup) ∧
    ∀ early attempt late, made = early ++ attempt :: late → ∀ id ∈ attempt.executed,
      ∀ later ∈ late, id ∉ later.batch := by
  intro start last made due
  have hfresh : Worklist.Fresh start.queue := start_fresh quarantine batchSize jobCount isDue
  have hitems : start.queue.flatten = waiting quarantine jobCount isDue :=
    start_items quarantine batchSize jobCount isDue
  have hweight : Worklist.weight start.queue ≤ 2 * due.length := by
    refine (Worklist.weight_le _).trans (Nat.mul_le_mul_left 2 ?_)
    rw [hitems]
    exact List.length_filter_le _ _
  have hstart : Accounts due.length start := by
    have hle : (waiting quarantine jobCount isDue).length ≤ due.length := List.length_filter_le _ _
    refine ⟨rfl, ?_⟩
    rw [hitems]
    change 0 + (due.length - (waiting quarantine jobCount isDue).length) + 0 + 0 + _ = due.length
    omega
  refine ⟨?_, ?_, ?_, ?_, ?_⟩
  · have hbound := attempts_work.bounded hfresh hfits
    change made.length + _ ≤ _ at hbound
    omega
  · intro hlong
    refine attempts_work.ends ?_ hfresh hfits (hweight.trans hlong)
    intro tick outcome hleft hnone
    cases hqueue : tick.queue with
    | nil => exact hleft hqueue
    | cons batch queue => simp [attempts, hqueue] at hnone
  · intro hended
    obtain ⟨hdue, haccounted⟩ : Accounts due.length last := accounts_run hstart hfits
    rw [hended] at haccounted
    refine ⟨hdue, hdue.trans haccounted.symm, ?_⟩
    intro id hid hfree
    have hlisted : id ∈ start.queue.flatten := by
      rw [hitems]
      exact List.mem_filter.mpr ⟨hid, by simp [hfree]⟩
    rcases attempts_work.covered hfits hlisted with htried | hleft
    · exact htried
    · change id ∈ last.queue.flatten at hleft
      rw [hended] at hleft
      cases hleft
  · intro attempt hattempt
    obtain ⟨hbounds, -⟩ := attempts_work.hereditary
      (P := fun batch => batch.length ≤ 20 ∧ batch.Nodup)
      (fun batch part hsub hbatch => ⟨hsub.length_le.trans hbatch.1, hbatch.2.sublist hsub⟩)
      (fun batch hbatch => ⟨(Worklist.mem_slices (clampSize_bounds batchSize).1 hbatch).2.trans
        (clampSize_bounds batchSize).2,
          hfresh.distinct.sublist (List.sublist_flatten_of_mem hbatch)⟩) hfits
    obtain ⟨hlength, hdistinct⟩ := hbounds attempt hattempt
    exact ⟨List.length_pos_of_ne_nil (attempts_work.tried_ne hfresh hfits attempt hattempt),
      hlength, hdistinct⟩
  · intro early attempt late hsplit id hid
    have hattempt : attempt ∈ made := by
      rw [hsplit]
      exact List.mem_append_right _ List.mem_cons_self
    obtain ⟨hbatch, hparts⟩ := executed_subset (attempt_fits hfits attempt hattempt) hid
    exact attempts_work.never_again hfresh hfits hsplit hbatch hparts

/-- Job 1 stops the first of two batches, and is set aside once it is tried alone. -/
theorem tick_accounts_badJob :
    let outcomes := [some .jobProblem, some (.executed [2] 10), some (.executed [0] 10),
      some .jobProblem, none, none]
    let last := attempts.run (Tick.start {} 2 3 fun _ => true) outcomes
    (last.summary.executed, last.summary.skipped, last.quarantine.untilTick 1) = (2, 1, some 31) ∧
      last.queue = [] ∧ last.summary.due = 3 := by
  intro outcomes last
  have hfits : attempts.Along Fits (Tick.start {} 2 3 fun _ => true) outcomes := by decide
  obtain ⟨-, hended, hlast, -⟩ := tick_accounts {} 2 3 (fun _ => true) hfits
  have hempty := hended (by decide)
  exact ⟨by decide, hempty, (hlast hempty).1⟩

end SoroCron.KeeperRs
