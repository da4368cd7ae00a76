import SoroCron.KeeperBot.Isolating
import SoroCron.KeeperRs.Isolating

/-! # Bad jobs are isolated

A job whose run fails takes its whole batch with it. One keeper looks for such jobs by halving
the batch, the other by trying its jobs one by one; both come to the same.
-/

namespace SoroCron

open KeeperBot (DueJob SendAction Sending sendings Try botTicks)
open KeeperRs (Attempt keeperRuns TickAnswers keeperTicks)

variable {View C : Type}

/-- However many jobs are bad and wherever they are, a tick of either keeper runs exactly the other
due jobs and sets aside exactly the bad ones, which no batch has until their quarantine ends. -/
theorem bad_jobs_isolated {bad : JobId → Bool}
    {deps : KeeperBot.TickDeps} (hsize : 1 ≤ deps.batchSize)
    {quarantine : KeeperBot.Quarantine} (hempty : quarantine.untilTick = [])
    {allDue : List DueJob} (hdistinct : (allDue.map DueJob.id).Nodup) {channels : List C}
    (hsome : channels ≠ []) {actions : List (SendAction View)}
    (hbot : (sendings View C deps).Along (KeeperBot.Behaves deps bad)
      (Sending.start deps (some quarantine) allDue channels) actions)
    {config : KeeperRs.Config} {feeIsNative : Bool}
    {held : KeeperRs.Quarantine} (hnone : ∀ id, held.untilTick id = none)
    {batchSize jobCount : ℕ} {isDue : JobId → Bool} {network : List (KeeperRs.Answers View)}
    (hrs : (keeperRuns View config feeIsNative).Along (KeeperRs.Behaves config feeIsNative bad)
      (KeeperRs.Tick.start held batchSize jobCount isDue) network) :
    (let start := Sending.start deps (some quarantine) allDue channels
      let last := (sendings View C deps).run start actions
      let tries := (sendings View C deps).outputs start actions
      ((∀ action : SendAction View, last.step deps action = last) → last.Finished) ∧
      (last.Finished →
        (tries.flatMap (Try.executed deps)).Perm ((allDue.map DueJob.id).filter fun id => !bad id) ∧
        (tries.flatMap (Try.aside deps)).Perm ((allDue.map DueJob.id).filter bad) ∧
        ∃ after, last.tick.state.quarantine = some after ∧
          ∀ id, after.has id = true ↔ id ∈ allDue.map DueJob.id ∧ bad id = true) ∧
      (∀ early t late, tries = early ++ t :: late →
        ∀ id ∈ Try.aside deps t, ∀ later ∈ late, id ∉ later.ids) ∧
      ∀ later : List (List DueJob × List (SendAction View)), later.length < quarantine.length →
        ∀ id ∈ tries.flatMap (Try.aside deps),
          ∀ t ∈ (botTicks View C deps channels).outputs last.tick.state.quarantine later,
            id ∉ t.ids) ∧
    (let start := KeeperRs.Tick.start held batchSize jobCount isDue
      let last := (keeperRuns View config feeIsNative).run start network
      let made := (keeperRuns View config feeIsNative).outputs start network
      let due := (List.range jobCount).filter isDue
      (2 * due.length ≤ network.length → last.queue = []) ∧
      (last.queue = [] →
        (made.flatMap Attempt.applied).Perm (due.filter fun id => !bad id) ∧
        (made.flatMap Attempt.aside).Perm (due.filter bad) ∧
        ∀ id, (last.quarantine.untilTick id).isSome = true ↔ id ∈ due ∧ bad id = true) ∧
      (∀ early attempt late, made = early ++ attempt :: late →
        ∀ id ∈ attempt.aside, ∀ later ∈ late, id ∉ later.batch) ∧
      ∀ later : List (TickAnswers View), later.length < KeeperRs.Quarantine.TICKS →
        ∀ id ∈ made.flatMap Attempt.aside,
          ∀ attempt ∈ (keeperTicks View config feeIsNative batchSize).outputs last.quarantine later,
            id ∉ attempt.batch) := by
  refine ⟨?_, KeeperRs.tick_isolates hnone batchSize jobCount isDue hrs⟩
  intro start last tries
  have hfresh : Worklist.Fresh start.left :=
    Sending.start_fresh hsize (some quarantine) hdistinct channels
  have halong : (sendings View C deps).Along (fun _ _ => True) start actions :=
    Machine.along_of_forall (fun _ _ => trivial) start actions
  have hsound : Sending.Sound channels last :=
    (sendings View C deps).invariant_run (fun _ action h _ => Sending.sound_step action h)
      (Sending.start_sound deps (some quarantine) allDue hsome) halong
  obtain ⟨hruns, hwithin, hlater⟩ := KeeperBot.tick_isolates hsize hempty hdistinct hbot
  refine ⟨?_, ?_, hwithin, hlater⟩
  · exact hsound.progress hsome ((Sending.sendings_work deps).fresh_run hfresh halong)
  · exact fun hfinished => hruns (hfinished.left_eq_nil hsound)

def secondBad (id : JobId) : Bool := id == 2

/-- Both jobs of a batch stop with the second; each half is tried. -/
def halvesTried : List (SendAction Unit) :=
  [.start 0, .turn ⟨0, Sending.stopped⟩, .turn ⟨0, Sending.ran [true]⟩, .turn ⟨0, Sending.stopped⟩,
    .completes 0, .finish 0]

def rsStopped : KeeperRs.Answers Unit := ⟨some (.error .other), true, fun _ => some 40, none⟩

def rsRan : KeeperRs.Answers Unit := ⟨some (.ok ⟨[true], 500, ()⟩), true, fun _ => some 40, some ()⟩

theorem answered_stopped {batch : List DueJob} (hbad : ∃ job ∈ batch, secondBad job.id = true) :
    KeeperBot.Answered Sending.pairDeps secondBad batch Sending.stopped := by
  refine ⟨fun _ => ⟨_, rfl, rfl⟩, ?_⟩
  intro hgood
  obtain ⟨job, hjob, hbad⟩ := hbad
  rw [hgood job hjob] at hbad
  cases hbad

theorem answered_ran {job : DueJob} (hgood : secondBad job.id = false) :
    KeeperBot.Answered Sending.pairDeps secondBad [job] (Sending.ran [true]) := by
  refine ⟨?_, fun _ => ⟨_, rfl, rfl, rfl, rfl, rfl⟩⟩
  intro hbad
  simp [hgood] at hbad

theorem rs_answered_stopped {batch : List JobId} (hbad : ∃ id ∈ batch, secondBad id = true) :
    KeeperRs.Answered KeeperRs.plainConfig false secondBad batch rsStopped := by
  refine ⟨fun _ => .inl rfl, ?_⟩
  intro hgood
  obtain ⟨id, hid, hbad⟩ := hbad
  rw [hgood id hid] at hbad
  cases hbad

theorem rs_answered_ran {id : JobId} (hgood : secondBad id = false) :
    KeeperRs.Answered KeeperRs.plainConfig false secondBad [id] rsRan := by
  refine ⟨?_, fun _ => ⟨_, 40, rfl, rfl, rfl, rfl, nofun, nofun, rfl, rfl⟩⟩
  intro hbad
  simp [hgood] at hbad

/-- Job 2 is due with one other job at the one keeper, and with two others at the other. -/
theorem bad_jobs_isolated_halved :
    let bot := Sending.start Sending.pairDeps (some {}) [⟨1, 40⟩, ⟨2, 40⟩] [0]
    let rs := KeeperRs.Tick.start {} 3 3 fun _ => true
    let network := [rsStopped, rsRan, rsRan, rsStopped, rsStopped, rsStopped]
    (((sendings Unit ℕ Sending.pairDeps).outputs bot halvesTried).flatMap
      (Try.aside Sending.pairDeps)).Perm [2] ∧
      (((keeperRuns Unit KeeperRs.plainConfig false).outputs rs network).flatMap
        Attempt.applied).Perm [0, 1] := by
  intro bot rs network
  have hbot : (sendings Unit ℕ Sending.pairDeps).Along
      (KeeperBot.Behaves Sending.pairDeps secondBad) bot
      halvesTried := by
    have hstart : ∀ turn : KeeperBot.Turn Unit, SendAction.start 0 ≠ .turn turn :=
      fun _ h => by cases h
    have hcompletes : ∀ turn : KeeperBot.Turn Unit, SendAction.completes 0 ≠ .turn turn :=
      fun _ h => by cases h
    have hfinish : ∀ turn : KeeperBot.Turn Unit, SendAction.finish 0 ≠ .turn turn :=
      fun _ h => by cases h
    refine ⟨.of_not_turn hstart, ?_, ?_, ?_, .of_not_turn hcompletes, .of_not_turn hfinish, trivial⟩
    · exact .of_head [⟨1, 40⟩, ⟨2, 40⟩] [] rfl (answered_stopped (by decide))
    · exact .of_head [⟨1, 40⟩] [[⟨2, 40⟩]] rfl (answered_ran rfl)
    · exact .of_head [⟨2, 40⟩] [] rfl (answered_stopped (by decide))
  have hrs : (keeperRuns Unit KeeperRs.plainConfig false).Along
      (KeeperRs.Behaves KeeperRs.plainConfig false secondBad) rs network := by
    refine ⟨?_, ?_, ?_, ?_, nofun, nofun, trivial⟩
    · rintro batch ⟨⟩
      exact rs_answered_stopped (by decide)
    · rintro batch ⟨⟩
      exact rs_answered_ran rfl
    · rintro batch ⟨⟩
      exact rs_answered_ran rfl
    · rintro batch ⟨⟩
      exact rs_answered_stopped (by decide)
  obtain ⟨⟨-, hfinished, -⟩, hended, happlied, -⟩ :=
    bad_jobs_isolated (by decide) rfl (by decide) (by decide) hbot (fun _ => rfl) hrs
  exact ⟨(hfinished (by decide)).2.1, (happlied (hended (by decide))).1⟩

end SoroCron
